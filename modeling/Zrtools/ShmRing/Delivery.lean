import Zrtools.ShmRing.Consumer
import Zrtools.ShmRing.Producer

/-!
# zrtools — what the ring delivers

The two sides of the ring together, in any order of their accesses.

* `delivers_of_meets` — in every run in which each lap ends with no bytes left or with
  room for a skip record, `ReadNext` returns what `Append` accepted, in order, and
  returns false only when it has returned all of it;
* `not_delivers_shortRemainder` — with 16 bytes left at the end of a lap, the consumer
  reads its own header out of the next lap and loses an entry.
-/

namespace Zrtools.ShmRing

open ByteMemory SharedMemory Wal

variable {cfg : Config}

/-- The entries come out as they went in, each once, and none is left when `ReadNext`
has just returned false. -/
structure Delivers (past : List Event) : Prop where
  inOrder : delivered past <+: appended past
  all : past.getLast? = some .nothing → delivered past = appended past

/-- The condition on a step: `WrapOk` where `Append` takes a number. -/
def StepOk (cfg : Config) (s : Sys) : Action → Prop
  | .produce => ∀ call ∈ s.producer, ∀ o ∈ call.code.next,
      WrapOk cfg (entrySize call.data.len) s.memory o
  | _ => True

instance decidableStepOk (cfg : Config) (s : Sys) : (a : Action) → Decidable (StepOk cfg s a)
  | .produce => inferInstanceAs (Decidable (∀ call ∈ s.producer, ∀ o ∈ call.code.next,
      WrapOk cfg (entrySize call.data.len) s.memory o))
  | .tick _ => isTrue trivial
  | .append _ _ => isTrue trivial
  | .readNext _ => isTrue trivial
  | .confirm _ => isTrue trivial
  | .consume => isTrue trivial

theorem appended_append (a b : List Event) : appended (a ++ b) = appended a ++ appended b :=
  List.filterMap_append ..

theorem delivered_append (a b : List Event) : delivered (a ++ b) = delivered a ++ delivered b :=
  List.filterMap_append ..

-- ---------------------------------------------------------------------------
-- The two sides
-- ---------------------------------------------------------------------------

/-- The producer between two of its accesses, when `before` has been appended. -/
def ProducerOk (cfg : Config) (before : List (UInt64 × UInt16 × List UInt8)) :
    Option Appending → World → Prop
  | none, w => Ready cfg before w
  | some call, w => call.type ≠ 0 ∧ call.data.bytes.length ≤ cfg.maxPayload ∧
      call.code.returned = none ∧
      Safe (producerContract cfg (entrySize call.data.len) before)
        (loopPost (fun _ => Ready cfg before)
          (fun seq => Ready cfg (before ++ appendResult call.type call.data seq))) call.code w

/-- The consumer between two of its accesses, when `before` has been delivered. -/
def ConsumerOk (cfg : Config) (before : List (UInt64 × UInt16 × List UInt8)) :
    Consumer → World → Prop
  | .idle, w => Watching cfg before w
  | .reading maxLen code, w => cfg.maxPayload ≤ maxLen ∧ code.returned = none ∧
      Safe (consumerContract cfg before)
        (loopPost (fun _ => Watching cfg before) (readResult cfg before)) code w
  | .confirming seq code, w => seq ∈ before.map Prod.fst ∧ code.returned = none ∧
      Safe (consumerContract cfg before)
        (loopPost (Scanning cfg before) (fun _ => Watching cfg before)) code w

section Sides

variable {before : List (UInt64 × UInt16 × List UInt8)} {w w' : World}

theorem ProducerOk.entries {producer : Option Appending} (h : ProducerOk cfg before producer w) :
    triples w.2.all = before := by
  match producer, h with
  | none, h => exact Ready.entries h
  | some ⟨type, data, .access o k⟩, h => exact h.2.2.2.1
  | some ⟨type, data, .ret (.again ())⟩, h => exact Ready.entries h.2.2.2

theorem ConsumerOk.entries {consumer : Consumer} (h : ConsumerOk cfg before consumer w) :
    triples w.2.past = before := by
  match consumer, h with
  | .idle, h => exact Watching.entries h
  | .reading _ (.access o k), h => exact h.2.2.1
  | .reading _ (.ret (.again ())), h => exact Watching.entries h.2.2
  | .confirming _ (.access o k), h => exact h.2.2.1
  | .confirming _ (.ret (.again _)), h => exact h.2.2.1.watching.entries

/-- The producer waits while the consumer makes a step. -/
theorem ProducerOk.wait {producer : Option Appending} (h : ProducerOk cfg before producer w)
    (hinv : RingInv cfg w') (hrely : ProducerRely w w') : ProducerOk cfg before producer w' := by
  have hentries := h.entries
  match producer, h with
  | none, h => exact h.rely hinv hrely
  | some call, ⟨htype, hlen, hrunning, hsafe⟩ =>
    refine ⟨htype, hlen, hrunning, hsafe.wait hrunning ?_ ?_ ?_⟩
    · show triples w'.2.all = before
      rw [hrely.all, hentries]
    · exact fun _ hready => hready.rely hinv hrely
    · exact fun w'' hnext => ⟨hnext.1, hrely.trans hnext.2⟩

theorem Scanning.rely {l : UInt64 × UInt64} (h : Scanning cfg before l w)
    (hinv : RingInv cfg w') (hrely : ConsumerRely w w') : Scanning cfg before l w' := by
  obtain ⟨⟨hwatch, skipped, hlive, hpos⟩, hle⟩ := h
  refine ⟨⟨hwatch.rely hinv hrely, skipped, hlive.trans hrely.live, ?_⟩, ?_⟩
  · rw [hrely.confirmed]
    exact hpos
  · exact Nat.le_trans hle hrely.total_le

/-- The consumer waits while the producer makes a step. -/
theorem ConsumerOk.wait {consumer : Consumer} (h : ConsumerOk cfg before consumer w)
    (hinv : RingInv cfg w') (hrely : ConsumerRely w w') : ConsumerOk cfg before consumer w' := by
  have hentries := h.entries
  have hduring : (consumerContract cfg before).during w' := by
    show triples w'.2.past = before
    rw [hrely.past, hentries]
  match consumer, h with
  | .idle, h => exact h.rely hinv hrely
  | .reading maxLen code, ⟨hmax, hrunning, hsafe⟩ =>
    refine ⟨hmax, hrunning, hsafe.wait hrunning hduring ?_ ?_⟩
    · exact fun _ hwatch => hwatch.rely hinv hrely
    · exact fun w'' hnext => ⟨hnext.1, hrely.trans hnext.2⟩
  | .confirming seq code, ⟨hseq, hrunning, hsafe⟩ =>
    refine ⟨hseq, hrunning, hsafe.wait hrunning hduring ?_ ?_⟩
    · exact fun _ hscan => hscan.rely hinv hrely
    · exact fun w'' hnext => ⟨hnext.1, hrely.trans hnext.2⟩

end Sides

-- ---------------------------------------------------------------------------
-- The invariant
-- ---------------------------------------------------------------------------

/-- The ring and its two threads against a tape. -/
structure OnTape (cfg : Config) (s : Sys) (past : List Event) (tape : Tape) : Prop where
  ring : RingInv cfg (s.memory, tape)
  producer : ProducerOk cfg (appended past) s.producer (s.memory, tape)
  consumer : ConsumerOk cfg (delivered past) s.consumer (s.memory, tape)
  read : s.read = (delivered past).map Prod.fst
  nothing : past.getLast? = some .nothing → delivered past = appended past

def Inv (cfg : Config) (s : Sys) (past : List Event) : Prop := ∃ tape, OnTape cfg s past tape

theorem Inv.delivers {s : Sys} {past : List Event} (h : Inv cfg s past) : Delivers past := by
  obtain ⟨tape, h⟩ := h
  refine ⟨?_, h.nothing⟩
  rw [← h.producer.entries, ← h.consumer.entries, Tape.all_eq_past, triples_append]
  exact List.prefix_append ..

theorem inv_fresh (cfg : Config) (beyond : Mem) (now : UInt64) :
    Inv cfg (Sys.fresh cfg beyond now) [] := by
  have hring := ringInv_fresh cfg beyond now
  refine ⟨⟨[], [], []⟩, hring, ⟨hring, rfl, ?_⟩, ⟨hring, rfl⟩, rfl, ?_⟩
  · show (1 : UInt64).toNat ≤ 0 + 1
    decide
  · intro h
    cases h

theorem appended_result (past : List Event) (call : Appending) (seq : UInt64) :
    appended (past ++ call.appended seq) =
      appended past ++ appendResult call.type call.data seq := by
  rw [appended_append, Appending.appended, appendResult]
  split
  · rfl
  · rfl

theorem delivered_result (past : List Event) (call : Appending) (seq : UInt64) :
    delivered (past ++ call.appended seq) = delivered past := by
  rw [delivered_append, Appending.appended]
  split
  · exact List.append_nil _
  · exact List.append_nil _

/-- An access of `Append`. -/
theorem OnTape.produce {s s' : Sys} {past : List Event} {tape : Tape} {call : Appending}
    {result : Option UInt64} (h : OnTape cfg s past tape) (hcall : s.producer = some call)
    (hok : ∀ o ∈ call.code.next, WrapOk cfg (entrySize call.data.len) s.memory o)
    (hstep : s.produce cfg call = some (s', result)) :
    Inv cfg s' (past ++ result.elim [] call.appended) := by
  obtain ⟨htype, hlen, hrunning, hsafe⟩ : ProducerOk cfg (appended past) (some call)
      (s.memory, tape) := by
    rw [← hcall]
    exact h.producer
  obtain ⟨⟨code, memory⟩, hcode, hresult⟩ := Option.map_eq_some_iff.mp hstep
  obtain ⟨tape', ⟨hring, hrely⟩, hrest⟩ :=
    hsafe.step ⟨h.ring, ProducerRely.refl _⟩ hok hcode
  have hsettle : Safe _ _ (code.settle fun () => append cfg call.type call.data)
      (memory, tape') := hrest.settle fun () w hready => safe_append htype hlen hready
  simp only at hresult
  generalize code.settle (fun () => append cfg call.type call.data) = code at hresult hsettle
  cases hresult
  have hconsumer := h.consumer.wait hring hrely
  cases hreturned : code.returned with
  | none =>
    rw [Option.elim_none, List.append_nil]
    refine ⟨tape', hring, ?_, hconsumer, h.read, h.nothing⟩
    rw [if_pos rfl]
    exact ⟨htype, hlen, hreturned, hsettle⟩
  | some seq =>
    rw [Option.elim_some]
    have hready : Ready cfg (appended past ++ appendResult call.type call.data seq)
        (memory, tape') := by
      match code, hreturned, hsettle with
      | .ret (.done _), rfl, hsettle => exact hsettle
    refine ⟨tape', hring, ?_, ?_, ?_, ?_⟩
    · rw [appended_result, if_neg (by simp)]
      exact hready
    · rw [delivered_result]
      exact hconsumer
    · rw [delivered_result]
      exact h.read
    · intro hlast
      rw [appended_result, delivered_result]
      unfold Appending.appended at hlast
      unfold appendResult
      split at hlast
      · rename_i hzero
        rw [List.append_nil] at hlast
        rw [if_pos hzero, List.append_nil]
        exact h.nothing hlast
      · rw [List.getLast?_concat] at hlast
        cases hlast

theorem appended_gaveBack (past : List Event) (result : Option (WalEntryHeader × List UInt8)) :
    appended (past ++ gaveBack result) = appended past := by
  rw [appended_append]
  rcases result with _ | ⟨header, data⟩
  · exact List.append_nil _
  · exact List.append_nil _

theorem delivered_gaveBack_none (past : List Event) :
    delivered (past ++ gaveBack none) = delivered past := by
  rw [delivered_append]
  exact List.append_nil _

theorem delivered_gaveBack_some (past : List Event) (header : WalEntryHeader)
    (data : List UInt8) : delivered (past ++ gaveBack (some (header, data))) =
      delivered past ++ [(header.seq, header.type, data)] := by
  rw [delivered_append]
  rfl

/-- An access of `ReadNext`. -/
theorem OnTape.consumeRead {s s' : Sys} {past : List Event} {tape : Tape} {maxLen : Nat}
    {code : Code (Flow Unit (Option (WalEntryHeader × List UInt8)))}
    {result : Option (Option (WalEntryHeader × List UInt8))} (h : OnTape cfg s past tape)
    (hcode : s.consumer = .reading maxLen code)
    (hstep : s.consumeRead cfg maxLen code = some (s', result)) :
    Inv cfg s' (past ++ result.elim [] gaveBack) := by
  obtain ⟨hmax, hrunning, hsafe⟩ : ConsumerOk cfg (delivered past) (.reading maxLen code)
      (s.memory, tape) := by
    rw [← hcode]
    exact h.consumer
  obtain ⟨⟨code', memory⟩, hcode', hresult⟩ := Option.map_eq_some_iff.mp hstep
  obtain ⟨tape', ⟨hring, hrely⟩, hrest⟩ :=
    hsafe.step ⟨h.ring, ConsumerRely.refl _⟩ (fun _ _ => trivial) hcode'
  have hsettle : Safe _ _ (code'.settle fun () => readNext cfg maxLen) (memory, tape') :=
    hrest.settle fun () w hwatch => safe_readNext hmax hwatch
  simp only at hresult
  generalize code'.settle (fun () => readNext cfg maxLen) = code'' at hresult hsettle
  have hproducer := h.producer.wait hring hrely
  match code'', hsettle with
  | .access o k, hsettle =>
    cases hresult
    rw [Option.elim_none, List.append_nil]
    exact ⟨tape', hring, hproducer, ⟨hmax, rfl, hsettle⟩, h.read, h.nothing⟩
  | .ret (.again l), hsettle =>
    cases hresult
    rw [Option.elim_none, List.append_nil]
    exact ⟨tape', hring, hproducer, ⟨hmax, rfl, hsettle⟩, h.read, h.nothing⟩
  | .ret (.done none), hsettle =>
    cases hresult
    obtain ⟨hwatch, hunread⟩ := hsettle
    rw [Option.elim_some]
    refine ⟨tape', hring, ?_, ?_, ?_, fun _ => ?_⟩
    · rw [appended_gaveBack]
      exact hproducer
    · rw [delivered_gaveBack_none]
      exact hwatch
    · rw [delivered_gaveBack_none]
      exact h.read
    · -- nothing is unread, so all that was appended was delivered
      have hunread : tape'.unread = [] := hunread
      rw [appended_gaveBack, delivered_gaveBack_none, ← hproducer.entries, ← hwatch.entries,
        Tape.all_eq_past, hunread, List.append_nil]
  | .ret (.done (some (header, data))), hsettle =>
    cases hresult
    rw [Option.elim_some]
    refine ⟨tape', hring, ?_, ?_, ?_, fun hlast => ?_⟩
    · rw [appended_gaveBack]
      exact hproducer
    · rw [delivered_gaveBack_some]
      exact hsettle
    · rw [delivered_gaveBack_some, List.map_append, ← h.read]
      rfl
    · rw [gaveBack, List.getLast?_concat] at hlast
      cases hlast

/-- An access of `Confirm`. -/
theorem OnTape.consumeConfirm {s s' : Sys} {past : List Event} {tape : Tape} {seq : UInt64}
    {code : Code (Flow (UInt64 × UInt64) Unit)} (h : OnTape cfg s past tape)
    (hcode : s.consumer = .confirming seq code)
    (hstep : s.consumeConfirm cfg seq code = some s') : Inv cfg s' past := by
  obtain ⟨hseq, hrunning, hsafe⟩ : ConsumerOk cfg (delivered past) (.confirming seq code)
      (s.memory, tape) := by
    rw [← hcode]
    exact h.consumer
  obtain ⟨⟨code', memory⟩, hcode', rfl⟩ := Option.map_eq_some_iff.mp hstep
  obtain ⟨tape', ⟨hring, hrely⟩, hrest⟩ :=
    hsafe.step ⟨h.ring, ConsumerRely.refl _⟩ (fun _ _ => trivial) hcode'
  have hsettle : Safe _ _ (code'.settle (confirmAt cfg seq)) (memory, tape') :=
    hrest.settle fun l w hscan => safe_confirmAt hseq hscan
  have hproducer := h.producer.wait hring hrely
  simp only
  generalize code'.settle (confirmAt cfg seq) = code'' at hsettle
  match code'', hsettle with
  | .access o k, hsettle =>
    exact ⟨tape', hring, hproducer, ⟨hseq, rfl, hsettle⟩, h.read, h.nothing⟩
  | .ret (.again l), hsettle =>
    exact ⟨tape', hring, hproducer, ⟨hseq, rfl, hsettle⟩, h.read, h.nothing⟩
  | .ret (.done ()), hsettle =>
    exact ⟨tape', hring, hproducer, hsettle, h.read, h.nothing⟩

/-- Time goes on. -/
theorem OnTape.tick {s : Sys} {past : List Event} {tape : Tape} (h : OnTape cfg s past tape)
    (now : UInt64) : Inv cfg { s with memory := s.memory.setWord .clock now } past := by
  have hkeep : ∀ v, v ≠ Var.clock → (s.memory.setWord .clock now).word v = s.memory.word v :=
    fun v hv => Shared.word_setWord_of_ne _ hv _
  have hring : RingInv cfg (s.memory.setWord .clock now, tape) := by
    refine h.ring.move rfl (hkeep _ (by decide)) (hkeep _ (by decide)) ?_ ?_ h.ring.stored
      h.ring.space
    · rw [hkeep _ (by decide)]
      exact h.ring.readPos
    · rw [hkeep _ (by decide)]
      exact h.ring.confirmedPos
  refine ⟨tape, hring, h.producer.wait hring ?_, h.consumer.wait hring ?_, h.read, h.nothing⟩
  · exact ⟨rfl, hkeep _ (by decide), hkeep _ (by decide), rfl, Nat.le_refl _⟩
  · exact ⟨rfl, rfl, List.prefix_refl _⟩

-- ---------------------------------------------------------------------------
-- What each step is
-- ---------------------------------------------------------------------------

section Steps

variable {s s' : Sys} {type : UInt16} {data : Payload} {maxLen : Nat} {seq : UInt64}

theorem step_append (hstep : s.step cfg (.append type data) = some s') :
    (s.producer = none ∧ type ≠ 0 ∧ data.bytes.length ≤ cfg.maxPayload) ∧
      s' = { s with
        producer := if (append cfg type data).returned = none then
            some { type := type, data := data, code := append cfg type data }
          else none } := by
  simp only [Sys.step] at hstep
  split at hstep
  · simp at hstep
  · rename_i hclient
    refine ⟨?_, (Option.some.inj hstep).symm⟩
    simpa using hclient

theorem step_produce (hstep : s.step cfg .produce = some s') :
    ∃ call result, s.producer = some call ∧ s.produce cfg call = some (s', result) ∧
      s.events cfg .produce = result.elim [] call.appended := by
  simp only [Sys.step] at hstep
  split at hstep
  · simp at hstep
  · rename_i call hcall
    obtain ⟨⟨t, result⟩, hproduce, rfl⟩ := Option.map_eq_some_iff.mp hstep
    refine ⟨call, result, hcall, hproduce, ?_⟩
    simp only [Sys.events, hcall]
    rw [hproduce]
    rfl

theorem step_readNext (hstep : s.step cfg (.readNext maxLen) = some s') :
    s.consumer = .idle ∧ cfg.maxPayload ≤ maxLen ∧
      s' = { s with consumer := .reading maxLen (readNext cfg maxLen) } := by
  simp only [Sys.step] at hstep
  split at hstep
  case h_1 hidle =>
    split at hstep
    · rename_i hmax
      exact ⟨hidle, hmax, (Option.some.inj hstep).symm⟩
    · simp at hstep
  case h_2 => simp at hstep
  case h_3 => simp at hstep

theorem step_confirm (hstep : s.step cfg (.confirm seq) = some s') :
    s.consumer = .idle ∧ seq ∈ s.read ∧
      s' = { s with consumer := .confirming seq confirm } := by
  simp only [Sys.step] at hstep
  split at hstep
  case h_1 hidle =>
    split at hstep
    · rename_i hread
      exact ⟨hidle, hread, (Option.some.inj hstep).symm⟩
    · simp at hstep
  case h_2 => simp at hstep
  case h_3 => simp at hstep

theorem step_consume (hstep : s.step cfg .consume = some s') :
    (∃ maxLen code result, s.consumer = .reading maxLen code ∧
      s.consumeRead cfg maxLen code = some (s', result) ∧
      s.events cfg .consume = result.elim [] gaveBack) ∨
    ∃ seq code, s.consumer = .confirming seq code ∧
      s.consumeConfirm cfg seq code = some s' ∧ s.events cfg .consume = [] := by
  simp only [Sys.step] at hstep
  split at hstep
  case h_1 => simp at hstep
  case h_2 maxLen code hconsumer =>
    obtain ⟨⟨t, result⟩, hread, rfl⟩ := Option.map_eq_some_iff.mp hstep
    refine Or.inl ⟨maxLen, code, result, hconsumer, hread, ?_⟩
    simp only [Sys.events, hconsumer]
    rw [hread]
    rfl
  case h_3 seq code hconsumer =>
    refine Or.inr ⟨seq, code, hconsumer, hstep, ?_⟩
    simp only [Sys.events, hconsumer]

end Steps

/-- Every step that meets the condition keeps the invariant. -/
theorem Inv.step {s s' : Sys} {past : List Event} {a : Action} (h : Inv cfg s past)
    (hok : StepOk cfg s a) (hstep : s.step cfg a = some s') :
    Inv cfg s' (past ++ s.events cfg a) := by
  obtain ⟨tape, h⟩ := h
  have hproducer := h.producer
  have hconsumer := h.consumer
  cases a with
  | tick now =>
    obtain rfl := Option.some.inj hstep
    rw [Sys.events, List.append_nil]
    exact h.tick now
  | append type data =>
    obtain ⟨⟨hidle, htype, hlen⟩, rfl⟩ := step_append hstep
    rw [Sys.events, List.append_nil]
    have hready : Ready cfg (appended past) (s.memory, tape) := by
      rw [hidle] at hproducer
      exact hproducer
    refine ⟨tape, h.ring, ?_, h.consumer, h.read, h.nothing⟩
    show ProducerOk cfg (appended past) (if _ then _ else _) _
    split
    · rename_i hrunning
      exact ⟨htype, hlen, hrunning, safe_append htype hlen hready⟩
    · exact hready
  | produce =>
    obtain ⟨call, result, hcall, hproduce, hevents⟩ := step_produce hstep
    rw [hevents]
    exact h.produce hcall (hok call hcall) hproduce
  | readNext maxLen =>
    obtain ⟨hidle, hmax, rfl⟩ := step_readNext hstep
    rw [Sys.events, List.append_nil]
    rw [hidle] at hconsumer
    exact ⟨tape, h.ring, h.producer, ⟨hmax, rfl, safe_readNext hmax hconsumer⟩, h.read, h.nothing⟩
  | confirm seq =>
    obtain ⟨hidle, hread, rfl⟩ := step_confirm hstep
    rw [Sys.events, List.append_nil]
    rw [hidle] at hconsumer
    rw [h.read] at hread
    exact ⟨tape, h.ring, h.producer, ⟨hread, rfl, safe_confirm hconsumer⟩, h.read, h.nothing⟩
  | consume =>
    obtain ⟨maxLen, code, result, hreading, hread, hevents⟩ |
      ⟨seq, code, hconfirming, hconfirm, hevents⟩ := step_consume hstep
    · rw [hevents]
      exact h.consumeRead hreading hread
    · rw [hevents, List.append_nil]
      exact h.consumeConfirm hconfirming hconfirm

/-- **Delivery.** In every run from a fresh ring in which `Append` only ever goes on at a
position that meets `WrapOk`, the consumer gets what the producer appended. -/
theorem delivers_of_meets {beyond : Mem} {now : UInt64} {acts : List Action} {s : Sys}
    (hok : Schedule.StepsMeet (Sys.step cfg) (StepOk cfg) (Sys.fresh cfg beyond now) acts)
    (hrun : Schedule.run (Sys.step cfg) (Sys.fresh cfg beyond now) acts = some s) :
    Delivers (Schedule.outputs (Sys.step cfg) (Sys.events cfg) (Sys.fresh cfg beyond now) acts) :=
  (Schedule.run_invariant_outputs (Sys.step cfg) (Inv cfg)
    (fun _ _ _ _ hinv hmeet hstep => hinv.step hmeet hstep)
    (inv_fresh cfg beyond now) hok hrun).delivers

-- ---------------------------------------------------------------------------
-- Ends of a lap
-- ---------------------------------------------------------------------------

def smallPayload : Payload := ⟨[1, 2, 3, 4, 5, 6, 7, 8], by decide⟩

/-- A buffer in which three headers fit. -/
def threeHeaders : Config where
  bufferSize := 72
  maxEntrySize := 32
  maxPayload := 8
  aligned := by decide
  half := by decide
  lt := by decide

/-- Two empty entries, and one of 32 bytes that goes to the next lap: 24 bytes are left
for a skip record. -/
def longRemainder : List Action :=
  Action.append 5 .empty :: List.replicate 31 Action.produce ++
    Action.append 5 .empty :: List.replicate 31 Action.produce ++
    Action.readNext 8 :: List.replicate 43 Action.consume ++
    Action.readNext 8 :: List.replicate 43 Action.consume ++
    Action.confirm 2 :: List.replicate 31 Action.consume ++
    Action.append 6 smallPayload :: List.replicate 76 Action.produce ++
    Action.readNext 8 :: List.replicate 72 Action.consume ++
    Action.readNext 8 :: List.replicate 2 Action.consume

/-- All three entries come out. -/
theorem delivers_longRemainder :
    Delivers (Schedule.outputs (Sys.step threeHeaders) (Sys.events threeHeaders)
      (Sys.fresh threeHeaders (fun _ => 0) 0) longRemainder) := by
  obtain ⟨s, hrun⟩ := Option.isSome_iff_exists.mp (show (Schedule.run (Sys.step threeHeaders)
    (Sys.fresh threeHeaders (fun _ => 0) 0) longRemainder).isSome = true by decide +kernel)
  exact delivers_of_meets (by decide +kernel) hrun

/-- A buffer of 64 bytes. -/
def shortBuffer : Config where
  bufferSize := 64
  maxEntrySize := 32
  maxPayload := 0
  aligned := by decide
  half := by decide
  lt := by decide

/-- Three empty entries: behind the second one 16 bytes are left in the lap. -/
def shortRemainder : List Action :=
  Action.append 5 .empty :: List.replicate 31 Action.produce ++
    Action.append 5 .empty :: List.replicate 31 Action.produce ++
    Action.readNext 0 :: List.replicate 43 Action.consume ++
    Action.confirm 1 :: List.replicate 13 Action.consume ++
    Action.append 5 .empty :: List.replicate 36 Action.produce ++
    Action.readNext 0 :: List.replicate 43 Action.consume ++
    Action.readNext 0 :: List.replicate 28 Action.consume

/-- `ReadNext` returns false although the third entry, number 4, was not returned. -/
theorem not_delivers_shortRemainder :
    (Schedule.run (Sys.step shortBuffer) (Sys.fresh shortBuffer (fun _ => 0) 0)
        shortRemainder).isSome = true ∧
      Schedule.outputs (Sys.step shortBuffer) (Sys.events shortBuffer)
          (Sys.fresh shortBuffer (fun _ => 0) 0) shortRemainder =
        [.appended 1 5 [], .appended 2 5 [], .delivered 1 5 [], .appended 4 5 [],
          .delivered 2 5 [], .nothing] :=
  ⟨by decide +kernel, by decide +kernel⟩

end Zrtools.ShmRing
