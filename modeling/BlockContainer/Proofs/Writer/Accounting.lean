import BlockContainer.Proofs.Writer.Closing
import BlockContainer.Proofs.Writer.Offsets

/-! # Where blocks end, and what is counted

A block ends with the first record at which its bytes reach the sync interval, or earlier where
the present block is ended and holds a record. That determines the blocks, and the writer writes
just these. It counts a record when its block is written, so what is counted and what waits are
all that has been accepted, and the bytes that are counted are those of the file.
-/
namespace BlockContainer.Writer

/-- What a request means for the blocks. -/
inductive Event where
  | record (b : Bytes)
  | cut
deriving DecidableEq, Repr

namespace Event

variable {interval : Nat} {waiting : List Bytes}

/-- The blocks into which events divide records, and what waits for a further block. -/
inductive Divides (interval : Nat) : List Event → List (List Bytes) → List Bytes → Prop
  | waits {waiting : List Bytes} (small : waiting.flatten.length < interval) :
    Divides interval (waiting.map record) [] waiting
  | idle {events : List Event} {blocks : List (List Bytes)} {waiting : List Bytes}
      (behind : Divides interval events blocks waiting) :
    Divides interval (cut :: events) blocks waiting
  | reached {front : List Bytes} {last : Bytes} {events : List Event} {blocks : List (List Bytes)}
      {waiting : List Bytes} (small : front.flatten.length < interval)
      (full : interval ≤ (front ++ [last]).flatten.length)
      (behind : Divides interval events blocks waiting) :
    Divides interval ((front ++ [last]).map record ++ events) ((front ++ [last]) :: blocks) waiting
  | ended {block : List Bytes} {events : List Event} {blocks : List (List Bytes)}
      {waiting : List Bytes} (nonempty : block ≠ []) (small : block.flatten.length < interval)
      (behind : Divides interval events blocks waiting) :
    Divides interval (block.map record ++ cut :: events) (block :: blocks) waiting

def divide (interval : Nat) (waiting : List Bytes) : Event → List (List Bytes) × List Bytes
  | record b =>
    if interval ≤ (waiting ++ [b]).flatten.length then ([waiting ++ [b]], [])
    else ([], waiting ++ [b])
  | cut => (if waiting.isEmpty then [] else [waiting], [])

def divideAll (interval : Nat) : List Bytes → List Event → List (List Bytes) × List Bytes
  | waiting, [] => ([], waiting)
  | waiting, event :: rest =>
    ((event.divide interval waiting).1 ++
        (divideAll interval (event.divide interval waiting).2 rest).1,
      (divideAll interval (event.divide interval waiting).2 rest).2)

def encodings (events : List Event) : List Bytes :=
  events.flatMap fun
    | record b => [b]
    | cut => []

end Event

namespace Request

def cuts : Request → List Event
  | append _ _ | appendTyped _ | appendEncoded _ => []
  | sync | close => [.cut]

def events (schema : Schema) (q : Request) : List Event :=
  (q.offers schema).map .record ++ q.cuts

end Request

variable {w₀ w : Writer} {done : List (List Entry)} {waiting : List Entry}

abbrev Entry.encodings (batch : List Entry) : List Bytes := batch.map Entry.bytes

theorem Entry.encodings_settle (interval : Nat) (waiting : List Entry) (e : Entry) :
    ((settle interval (waiting ++ [e])).1.map encodings,
        encodings (settle interval (waiting ++ [e])).2) =
      Event.divide interval (encodings waiting) (.record e.bytes) := by
  have hdata : data (waiting ++ [e]) = (encodings waiting ++ [e.bytes]).flatten := by
    rw [data, List.map_append]
    rfl
  rw [settle, Event.divide, hdata]
  split
  · have hbatch : batch (waiting ++ [e]) = [waiting ++ [e]] := if_neg (by simp)
    simp [hbatch]
  · simp

theorem Entry.encodings_batch (interval : Nat) (waiting : List Entry) :
    ((batch waiting).map encodings, ([] : List Bytes)) =
      Event.divide interval (encodings waiting) .cut := by
  cases waiting <;> rfl

theorem recordsWritten_of_create {t : FileTree} {path codecName : Bytes} {schema : Schema}
    {interval : Nat} {marker : SyncMarker}
    (h : create t path schema codecName interval marker = .ok w₀) : w₀.recordsWritten = 0 := by
  cases hcodec : CodecRegistry.standard.create codecName with
  | error e =>
    simp only [create, hcodec, bind, Except.bind, Except.mapError] at h
    cases h
  | ok codec =>
    simp only [create, hcodec, bind, Except.bind, Except.mapError] at h
    split at h
    · cases h
    · split at h <;> cases h
      rfl

section Service

variable [Deflate.Service]

/-- A request before the close divides what waits just as its event. -/
theorem Settled.divides (h : Settled w₀ w done waiting) (hc : w₀.codec.Compresses) {q : Request}
    (hq : q ≠ .close) : ∃ sent left, Settled w₀ (Runs.after q.run w) (done ++ sent) left ∧
      (sent.map Entry.encodings, Entry.encodings left) =
        Event.divideAll w₀.syncInterval (Entry.encodings waiting) (q.events w₀.schema) := by
  have happend {b : Bytes} (hmatches : q.Matches w.schema) (hb : q.encodings = [b])
      (hevents : q.events w₀.schema = [.record b]) :
      ∃ sent left, Settled w₀ (Runs.after q.run w) (done ++ sent) left ∧
        (sent.map Entry.encodings, Entry.encodings left) =
          Event.divideAll w₀.syncInterval (Entry.encodings waiting) (q.events w₀.schema) := by
    obtain ⟨w', hok, hsettled⟩ := h.appendEncoded_ok hc ⟨b, Record.ofSchema w₀.schema⟩
    rw [Runs.after_of_ok ((Request.run_of_encodings hmatches hb).trans hok), hevents]
    refine ⟨_, _, hsettled, ?_⟩
    rw [Entry.encodings_settle, Event.divideAll, Event.divideAll, List.append_nil]
  by_cases hmatches : q.Matches w.schema
  · have hmatches₀ : q.Matches w₀.schema := by rwa [← h.schema_eq]
    cases q with
    | append | appendTyped | appendEncoded =>
      refine happend hmatches rfl ?_
      rw [Request.events, Request.offers, if_pos hmatches₀]
      rfl
    | sync =>
      obtain ⟨w', hok, hsettled⟩ := h.writeWaiting_ok hc
      have hsync : Request.sync.run w = .ok () w' := by
        rw [Request.run, Runs.map_eq_ok_iff]
        exact ⟨w'.bytesWritten, Runs.bind_of_ok hok, rfl⟩
      have hevents : Request.sync.events w₀.schema = [.cut] := rfl
      rw [Runs.after_of_ok hsync, hevents]
      refine ⟨_, _, hsettled, ?_⟩
      change (_, ([] : List Bytes)) = _
      rw [Entry.encodings_batch w₀.syncInterval, Event.divideAll, Event.divideAll, List.append_nil]
    | close => exact absurd rfl hq
  · obtain ⟨e, hrefused⟩ := Request.run_of_not_matches hmatches
    have hevents : q.events w₀.schema = [] := by
      rw [Request.events, Request.offers, if_neg (by rwa [← h.schema_eq])]
      cases q with
      | append => rfl
      | appendTyped | appendEncoded | sync | close => exact absurd trivial hmatches
    rw [Runs.after_of_error hrefused, hevents]
    exact ⟨[], waiting, by rwa [List.append_nil], rfl⟩

namespace Lasting

variable {P : Writer → Prop}

theorem run (h : Lasting P) {q : Request} (hq : q ≠ .close) : Runs.Keeps P q.run := by
  cases q with
  | append r typed => exact h.append r
  | appendTyped a => exact h.appendEncoded _
  | appendEncoded b => exact h.appendEncoded b
  | sync =>
    intro w hw
    rw [Request.run, Runs.after_map]
    exact h.sync hw
  | close => exact absurd rfl hq

theorem afterAll (h : Lasting P) {requests : List Request} (hopen : .close ∉ requests) (hw : P w) :
    P (afterAll requests w) := by
  induction requests generalizing w with
  | nil => exact hw
  | cons q rest ih =>
    have hq : q ≠ .close := fun hclose => hopen (hclose ▸ List.mem_cons_self)
    exact ih (fun hclose => hopen (List.mem_cons_of_mem _ hclose)) (h.run hq hw)

end Lasting

structure Counted (n : Nat) (w : Writer) : Prop where
  delivers : w.output.Delivers
  total : w.recordsWritten + w.waiting.length = n
  bound : n < 2 ^ 63

theorem keeps_counted_writeWaiting {n : Nat} : Runs.Keeps (Counted n) writeWaiting := by
  intro w h
  rcases writeWaiting_cases h.delivers with hsame | ⟨payload, hwritten⟩
  · rwa [hsame]
  · rw [hwritten]
    refine ⟨h.delivers.behind _, ?_, h.bound⟩
    have htotal := h.total
    have hbound := h.bound
    change w.recordsWritten + (Int64.ofInt w.waiting.length).toInt.toNat + 0 = n
    rw [toInt_ofInt_length (by omega), Int.toNat_natCast, Nat.add_zero, htotal]

theorem Counted.run {n : Nat} (h : Counted n w) {q : Request} (hq : q ≠ .close)
    (hbound : n + (q.offers w.schema).length < 2 ^ 63) :
    Counted (n + (q.offers w.schema).length) (Runs.after q.run w) := by
  have happend {b : Bytes} (hmatches : q.Matches w.schema) (hb : q.encodings = [b]) :
      Counted (n + (q.offers w.schema).length) (Runs.after q.run w) := by
    have hoffers : q.offers w.schema = [b] := by rw [Request.offers, if_pos hmatches, hb]
    rw [hoffers] at hbound ⊢
    have haccept : Counted (n + 1) (w.accept b) :=
      ⟨h.delivers, by rw [← h.total]; rfl, hbound⟩
    have hsettle : Runs.Keeps (Counted (n + 1)) (do
        let w ← get
        if w.syncInterval ≤ w.waitingSize then writeWaiting else return ()) := by
      refine Runs.Keeps.get fun w hw => ?_
      split
      · exact keeps_counted_writeWaiting hw
      · exact hw
    rw [Runs.after, Request.run_of_encodings hmatches hb]
    exact hsettle haccept
  by_cases hmatches : q.Matches w.schema
  · cases q with
    | append | appendTyped | appendEncoded => exact happend hmatches rfl
    | sync =>
      have hend : Runs.Keeps (Counted n) (do return (← get).bytesWritten : Step Nat) :=
        Runs.Keeps.get fun _ hw => hw
      rw [Request.run, Runs.after_map]
      exact keeps_counted_writeWaiting.bind (fun _ => hend) h
    | close => exact absurd rfl hq
  · obtain ⟨e, hrefused⟩ := Request.run_of_not_matches hmatches
    rw [Runs.after_of_error hrefused, Request.offers, if_neg hmatches]
    exact h

theorem Settled.counted (h : Settled w₀ w done waiting) (hc : w₀.codec.Compresses) {n : Nat}
    (hcounted : Counted n w) {requests : List Request} (hopen : .close ∉ requests)
    (hbound : n + (requests.flatMap (Request.offers w₀.schema)).length < 2 ^ 63) :
    Counted (n + (requests.flatMap (Request.offers w₀.schema)).length) (afterAll requests w) := by
  induction requests generalizing w done waiting n with
  | nil => exact hcounted
  | cons q rest ih =>
    have hq : q ≠ .close := fun hclose => hopen (hclose ▸ List.mem_cons_self)
    rw [List.flatMap_cons, List.length_append, ← Nat.add_assoc] at hbound ⊢
    obtain ⟨sent, left, hsettled, -⟩ := h.divides hc hq
    have hrun := hcounted.run hq (by rw [h.schema_eq]; omega)
    rw [h.schema_eq] at hrun
    exact ih hsettled hrun (fun hclose => hopen (List.mem_cons_of_mem _ hclose)) hbound

def blockOf (codec : Codec) (records : List Bytes) : Block where
  recordCount := Int64.ofInt records.length
  payload := codec.packed records.flatten

/-- What a writer has made of events, and what it has counted. So many records were accepted. -/
structure Accounts (w : Writer) (header : Header) (interval : Nat) (events : List Event)
    (accepted : Nat) (blocks : List (List Bytes)) (waiting : List Bytes) : Prop where
  divides : Event.Divides interval events blocks waiting
  divides_only : ∀ blocks' waiting', Event.Divides interval events blocks' waiting' →
    blocks' = blocks ∧ waiting' = waiting
  output_eq : w.output.accepted = fileWith header w.codec blocks
  waiting_eq : w.waiting.reverse = waiting
  count : ∀ block ∈ blocks, 0 < (blockOf w.codec block).recordCount.toInt ∧
    (blockOf w.codec block).recordCount.toInt = block.length
  payload : ∀ block ∈ blocks, w.codec.Fits block.flatten →
    w.codec.Unpacks (blockOf w.codec block).payload block.flatten
  recordsWritten_eq : w.recordsWritten =
    (blocks.map fun block => (blockOf w.codec block).recordCount.toInt.toNat).sum
  bytesWritten_eq : w.bytesWritten = header.toBytes.length +
    (blocks.map fun block => ((blockOf w.codec block).toBytes header.marker).length).sum
  bytesWritten_eq_length : w.bytesWritten = w.output.accepted.length
  accepted_eq : w.recordsWritten + w.waiting.length = accepted

theorem Settled.output_eq (h : Settled w₀ w done waiting) {header : Header}
    (haccepted : w₀.output.accepted = header.toBytes) (hmarker : w₀.header.marker = header.marker) :
    w.output.accepted = fileWith header w.codec (done.map Entry.encodings) := by
  rw [h.accepted, haccepted, hmarker, h.codec_eq]
  exact toBytes_eq_fileWith header w₀.codec done

theorem Created.counted {t : FileTree} {path codecName : Bytes} {schema : Schema} {interval : Nat}
    {marker : SyncMarker} (h : Created w₀ schema codecName interval marker)
    (hcreate : create t path schema codecName interval marker = .ok w₀)
    (hroom : w₀.output.full = false) : Counted 0 w₀ where
  delivers := (h.settled hroom).delivers
  total := by
    rw [recordsWritten_of_create hcreate, h.waiting_eq]
    rfl
  bound := by decide

end Service

end BlockContainer.Writer
