import BlockContainer.Proofs.Writer.Calls

/-! # What becomes of records behind the close

Up to the first close each record that a writer accepts comes into the file. The close ends
the file for good, but a record that is appended then is refused only if a block would have
to be written for it. As long as the records since the close stay below the sync interval
they are accepted, and are lost.
-/
namespace BlockContainer.Writer

section Service

variable [Deflate.Service]

/-- What can be asked of a writer at any time, with any bytes for an encoding. -/
inductive Request : Type 1 where
  | append (r : Record) (typed : r.WellTyped)
  | appendTyped {α : Type} [TypedRecord α] (a : α)
  | appendEncoded (b : Bytes)
  | sync
  | close

namespace Request

def run : Request → Step Unit
  | append r _ => Writer.append r
  | appendTyped a => Writer.appendTyped a
  | appendEncoded b => Writer.appendEncoded b
  | sync => (fun _ => ()) <$> Writer.sync
  | close => Writer.close

def encodings : Request → List Bytes
  | append r _ => [r.values.flatMap Value.encode]
  | appendTyped a => [TypedRecord.encode a]
  | appendEncoded b => [b]
  | sync | close => []

def Matches (schema : Schema) : Request → Prop
  | append r _ => r.schema = schema
  | _ => True

instance (schema : Schema) : DecidablePred (Matches schema) := fun q =>
  match q with
  | append r _ => inferInstanceAs (Decidable (r.schema = schema))
  | appendTyped _ | appendEncoded _ | sync | close => isTrue trivial

def offers (schema : Schema) (q : Request) : List Bytes :=
  if q.Matches schema then q.encodings else []

/-- The encoding of an append that returns normally. -/
def returned (w : Writer) (q : Request) : List Bytes :=
  if (Runs.value? q.run w).isSome then q.encodings else []

theorem returned_of_ok {w w' : Writer} {q : Request} (h : q.run w = .ok () w') :
    q.returned w = q.encodings := by
  rw [returned, Runs.value?_of_ok h]
  rfl

theorem returned_of_error {w w' : Writer} {q : Request} {e : Error} (h : q.run w = .error e w') :
    q.returned w = [] := by
  rw [returned, Runs.value?, h]
  rfl

theorem run_of_not_matches {w : Writer} {q : Request} (h : ¬q.Matches w.schema) :
    ∃ e, q.run w = .error e w := by
  cases q with
  | append r typed => exact ⟨_, Holding.append_refused h⟩
  | appendTyped | appendEncoded | sync | close => exact absurd trivial h

theorem run_of_encodings {w : Writer} {q : Request} (h : q.Matches w.schema) {b : Bytes}
    (hb : q.encodings = [b]) : q.run w = Writer.appendEncoded b w := by
  cases q with
  | append r typed =>
    cases hb
    exact Holding.append_taken h typed
  | appendTyped a | appendEncoded b =>
    cases hb
    rfl
  | sync | close => cases hb

end Request

def afterAll (requests : List Request) (w : Writer) : Writer :=
  requests.foldl (fun w q => Runs.after q.run w) w

def returned (w : Writer) : List Request → List Bytes
  | [] => []
  | q :: rest => q.returned w ++ returned (Runs.after q.run w) rest

def fileWith (header : Header) (codec : Codec) (batches : List (List Bytes)) : Bytes :=
  header.toBytes ++ batches.flatMap fun batch =>
    ({ recordCount := Int64.ofInt batch.length, payload := codec.packed batch.flatten } :
      Block).toBytes header.marker

variable {w₀ w : Writer} {done : List (List Entry)} {waiting : List Entry}

theorem toBytes_eq_fileWith (header : Header) (codec : Codec) (batches : List (List Entry)) :
    header.toBytes ++ Entry.toBytes codec header.marker batches =
      fileWith header codec (batches.map (List.map Entry.bytes)) := by
  rw [fileWith, List.flatMap_map, Entry.toBytes]
  simp only [Entry.block, Entry.data, List.length_map]

/-- Before the close an append that matches returns normally. -/
theorem Settled.run_append (h : Settled w₀ w done waiting) (hc : w₀.codec.Compresses) {q : Request}
    {b : Bytes} (hmatches : q.Matches w.schema) (hb : q.encodings = [b]) :
    ∃ w' sent left, q.run w = .ok () w' ∧ Settled w₀ w' (done ++ sent) left ∧
      (sent.flatten ++ left).map Entry.bytes = waiting.map Entry.bytes ++ [b] := by
  obtain ⟨w', hok, hsettled⟩ := h.appendEncoded_ok hc ⟨b, Record.ofSchema w₀.schema⟩
  refine ⟨w', _, _, (Request.run_of_encodings hmatches hb).trans hok, hsettled, ?_⟩
  rw [Entry.flatten_settle, List.map_append]
  rfl

/-- What a request before the close offers comes into the file or the buffer, and it returns
normally. -/
theorem Settled.run (h : Settled w₀ w done waiting) (hc : w₀.codec.Compresses) {q : Request}
    (hq : q ≠ .close) : q.returned w = q.offers w₀.schema ∧
      ∃ sent left, Settled w₀ (Runs.after q.run w) (done ++ sent) left ∧
        (sent.flatten ++ left).map Entry.bytes = waiting.map Entry.bytes ++ q.offers w₀.schema := by
  rw [Request.offers, ← h.schema_eq]
  by_cases hmatches : q.Matches w.schema
  · rw [if_pos hmatches]
    cases q with
    | append | appendTyped | appendEncoded =>
      obtain ⟨w', sent, left, hok, hsettled, hbrought⟩ := h.run_append hc hmatches rfl
      rw [Runs.after_of_ok hok]
      exact ⟨Request.returned_of_ok hok, sent, left, hsettled, hbrought⟩
    | sync =>
      obtain ⟨w', hok, hsettled⟩ := h.writeWaiting_ok hc
      have hsync : Request.sync.run w = .ok () w' := by
        rw [Request.run, Runs.map_eq_ok_iff]
        exact ⟨w'.bytesWritten, Runs.bind_of_ok hok, rfl⟩
      refine ⟨Request.returned_of_ok hsync, _, _, by rwa [Runs.after_of_ok hsync], ?_⟩
      rw [Entry.flatten_batch, List.append_nil]
      exact (List.append_nil _).symm
    | close => exact absurd rfl hq
  · obtain ⟨e, hrefused⟩ := Request.run_of_not_matches hmatches
    rw [if_neg hmatches, List.append_nil]
    refine ⟨Request.returned_of_error hrefused, [], waiting, ?_, rfl⟩
    rwa [Runs.after_of_error hrefused, List.append_nil]

theorem Settled.runAll (h : Settled w₀ w done waiting) (hc : w₀.codec.Compresses)
    {requests : List Request} (hopen : .close ∉ requests) :
    returned w requests = requests.flatMap (Request.offers w₀.schema) ∧
      ∃ sent left, Settled w₀ (afterAll requests w) (done ++ sent) left ∧
        (sent.flatten ++ left).map Entry.bytes =
          waiting.map Entry.bytes ++ requests.flatMap (Request.offers w₀.schema) := by
  induction requests generalizing w done waiting with
  | nil => exact ⟨rfl, [], waiting, by simpa [afterAll] using h, by simp⟩
  | cons q rest ih =>
    have hq : q ≠ .close := fun hclose => hopen (hclose ▸ List.mem_cons_self)
    obtain ⟨hreturned, sent, left, hsettled, hbrought⟩ := h.run hc hq
    obtain ⟨hreturned', sent', left', hsettled', hbrought'⟩ :=
      ih hsettled fun hclose => hopen (List.mem_cons_of_mem _ hclose)
    refine ⟨by rw [returned, hreturned, hreturned', List.flatMap_cons], sent ++ sent', left',
      by rwa [← List.append_assoc], ?_⟩
    rw [List.flatten_append, List.append_assoc, List.map_append, hbrought', ← List.append_assoc,
      ← List.map_append, hbrought, List.append_assoc, List.flatMap_cons]

/-- The file was closed, since then nothing has changed in it, and this was offered. -/
structure Shut (closed w : Writer) (offered : List Bytes) : Prop where
  isOpen : w.isOpen = false
  schema_eq : w.schema = closed.schema
  interval_eq : w.syncInterval = closed.syncInterval
  output_eq : w.output = closed.output
  bytesWritten_eq : w.bytesWritten = closed.bytesWritten
  recordsWritten_eq : w.recordsWritten = closed.recordsWritten
  waiting_eq : w.waiting = offered.reverse

namespace Shut

variable {closed : Writer} {offered : List Bytes}

omit [Deflate.Service] in
theorem accept (h : Shut closed w offered) (b : Bytes) :
    Shut closed (w.accept b) (offered ++ [b]) where
  isOpen := h.isOpen
  schema_eq := h.schema_eq
  interval_eq := h.interval_eq
  output_eq := h.output_eq
  bytesWritten_eq := h.bytesWritten_eq
  recordsWritten_eq := h.recordsWritten_eq
  waiting_eq := by simp [Writer.accept, h.waiting_eq]

theorem writeWaiting_eq (h : Shut closed w offered) : writeWaiting w =
    if offered = [] then .ok () w else .error (.misuse (.writerClosed w.filename)) w := by
  have hempty : w.waiting.isEmpty = true ↔ offered = [] := by simp [h.waiting_eq]
  rw [writeWaiting, Runs.get_bind]
  by_cases hnone : offered = []
  · rw [if_pos (hempty.2 hnone), if_pos hnone]
    rfl
  · rw [if_neg fun hw => hnone (hempty.1 hw), if_neg hnone]
    apply Runs.bind_of_error
    rw [ensure, if_neg (by simp [h.isOpen])]
    rfl

theorem appendEncoded_eq (h : Shut closed w offered) (b : Bytes) : appendEncoded b w =
    if closed.syncInterval ≤ offered.flatten.length + b.length then
      .error (.misuse (.writerClosed w.filename)) (w.accept b)
    else .ok () (w.accept b) := by
  have haccept := h.accept b
  have hsize : (w.accept b).waitingSize = offered.flatten.length + b.length := by
    rw [(w.accept b).waitingSize_eq, haccept.waiting_eq]
    simp [Nat.add_comm]
  rw [appendEncoded, Runs.modify_bind, Runs.get_bind, hsize, haccept.interval_eq]
  split
  · rw [haccept.writeWaiting_eq, if_neg (by simp)]
    rfl
  · rfl

theorem after_appendEncoded (h : Shut closed w offered) (b : Bytes) :
    Runs.after (appendEncoded b) w = w.accept b := by
  have hrun := h.appendEncoded_eq b
  split at hrun
  · exact Runs.after_of_error hrun
  · exact Runs.after_of_ok hrun

theorem after_sync (h : Shut closed w offered) : Runs.after sync w = w := by
  have hwrite := h.writeWaiting_eq
  split at hwrite
  · exact Runs.after_of_ok (Runs.bind_of_ok hwrite)
  · exact Runs.after_of_error (Runs.bind_of_error hwrite)

theorem close_eq (h : Shut closed w offered) : close w = .ok () w := by
  rw [close, Runs.get_bind, if_neg (by simp [h.isOpen])]
  rfl

theorem run (h : Shut closed w offered) (q : Request) :
    Shut closed (Runs.after q.run w) (offered ++ q.offers closed.schema) := by
  have haccept {b : Bytes} (hmatches : q.Matches w.schema) (hb : q.encodings = [b]) :
      Shut closed (Runs.after q.run w) (offered ++ q.offers closed.schema) := by
    rw [Runs.after, Request.run_of_encodings hmatches hb, Request.offers, ← h.schema_eq,
      if_pos hmatches, hb]
    change Shut closed (Runs.after (appendEncoded b) w) _
    rw [h.after_appendEncoded]
    exact h.accept b
  by_cases hmatches : q.Matches w.schema
  · cases q with
    | append | appendTyped | appendEncoded => exact haccept hmatches rfl
    | sync =>
      have hnone : Request.sync.offers closed.schema = [] := rfl
      rw [hnone, List.append_nil, Request.run, Runs.after_map, h.after_sync]
      exact h
    | close =>
      have hnone : Request.close.offers closed.schema = [] := rfl
      rw [hnone, List.append_nil, Request.run, Runs.after_of_ok h.close_eq]
      exact h
  · obtain ⟨e, hrefused⟩ := Request.run_of_not_matches hmatches
    rw [Runs.after_of_error hrefused, Request.offers, ← h.schema_eq, if_neg hmatches,
      List.append_nil]
    exact h

theorem runAll (h : Shut closed w offered) (requests : List Request) :
    Shut closed (afterAll requests w)
      (offered ++ requests.flatMap (Request.offers closed.schema)) := by
  induction requests generalizing w offered with
  | nil => simpa [afterAll] using h
  | cons q rest ih =>
    have hrest := ih (h.run q)
    rw [List.append_assoc] at hrest
    exact hrest

omit [Deflate.Service] in
theorem file_eq (h : Shut closed w offered) : w.file = closed.file := by
  rw [file, file, h.output_eq]

end Shut

omit [Deflate.Service] in
theorem shut_closed (w : Writer) (hempty : w.waiting = []) :
    Shut { w with isOpen := false } { w with isOpen := false } [] :=
  ⟨rfl, rfl, rfl, rfl, rfl, rfl, hempty⟩

theorem finish_of_ok {w w' : Writer} (h : close w = .ok () w') : finish w = w' := by
  rw [finish, h]

/-- Later requests leave the file and the counts of a closed writer alone. An append that matches
is refused only when all that was offered since the close has reached the sync interval. Before
that it returns normally, and what it brought is lost. -/
structure StaysClosed (closed : Writer) (schema : Schema) (interval : Nat) (after : List Request) :
    Prop where
  file_eq : (afterAll after closed).file = closed.file
  finish_eq : (finish (afterAll after closed)).file = closed.file
  bytesWritten_eq : (afterAll after closed).bytesWritten = closed.bytesWritten
  recordsWritten_eq : (afterAll after closed).recordsWritten = closed.recordsWritten
  append_eq : ∀ (q : Request) (b : Bytes), q.Matches schema → q.encodings = [b] →
    q.run (afterAll after closed) =
      if interval ≤ (after.flatMap (Request.offers schema)).flatten.length + b.length then
        .error (.misuse (.writerClosed (afterAll after closed).filename))
          ((afterAll after closed).accept b)
      else .ok () ((afterAll after closed).accept b)

theorem staysClosed {schema : Schema} {interval : Nat} (hempty : w.waiting = [])
    (hschema : w.schema = schema) (hinterval : w.syncInterval = interval) (after : List Request) :
    StaysClosed { w with isOpen := false } schema interval after := by
  subst hschema hinterval
  have hshut := (shut_closed w hempty).runAll after
  refine ⟨hshut.file_eq, ?_, hshut.bytesWritten_eq, hshut.recordsWritten_eq,
    fun q b hmatches hb => ?_⟩
  · rw [finish_of_ok hshut.close_eq]
    exact hshut.file_eq
  · rw [Request.run_of_encodings (by rwa [hshut.schema_eq]) hb, hshut.appendEncoded_eq]
    rfl

/-- All appends before the first close return normally, unless they are of another schema, and
their encodings are what the blocks of the file hold, each once and in their order, whether the
writer is closed by a request or given up. What comes behind the close never reaches the file. A
compressor counts bytes with 32 bits, so a payload has to fit to be unpacked to what went in. -/
theorem returned_until_closed [Deflate.Conforming] {t : FileTree} {path codecName : Bytes}
    {schema : Schema} {interval : Nat} {marker : SyncMarker}
    (hcreate : create t path schema codecName interval marker = .ok w₀)
    (hroom : w₀.output.full = false) (before : List Request) (hbefore : .close ∉ before) :
    returned w₀ before = before.flatMap (Request.offers schema) ∧
    ∃ batches closed, batches.flatten = returned w₀ before ∧
      (∀ batch ∈ batches, w₀.codec.Fits batch.flatten →
        w₀.codec.Unpacks (w₀.codec.packed batch.flatten) batch.flatten) ∧
      close (afterAll before w₀) = .ok () closed ∧ finish (afterAll before w₀) = closed ∧
      closed.file = fileWith (headerFor schema w₀.codec marker) w₀.codec batches ∧
      ∀ after, StaysClosed closed schema (max interval 1) after := by
  have hcreated := created_of_create hcreate
  obtain rfl := hcreated.schema_eq
  have hc := Codec.compresses_of_standard hcreated.codec_found
  obtain ⟨hreturned, sent, left, hsettled, hbrought⟩ := (hcreated.settled hroom).runAll hc hbefore
  obtain ⟨w, hclose, hclosed⟩ := hsettled.close_eq hc
  refine ⟨hreturned, (sent ++ Entry.batch left).map (List.map Entry.bytes),
    { w with isOpen := false }, ?_, fun batch _ hfits => Codec.unpacks_packed hc hfits, hclose,
    finish_of_ok hclose, ?_,
    staysClosed hclosed.waiting_eq hclosed.schema_eq
      (hclosed.interval_eq.trans hcreated.interval_eq)⟩
  · rw [← List.map_flatten, List.flatten_append, Entry.flatten_batch, hbrought, hreturned]
    rfl
  · rw [← toBytes_eq_fileWith]
    change w.file = _
    rw [hclosed.file_eq, hcreated.accepted, hcreated.marker_eq]
    rfl

end Service

def lateRequests : List Request :=
  [.appendTyped (FixedRecord.ofInt 1), .close, .appendTyped (FixedRecord.ofInt 2)]

/-- The file is the one with the first record, and the second append returns normally. -/
theorem returned_until_closed_fixed : ∃ (w₀ closed : Writer) (batches : List (List Bytes)),
    create {} "out" FixedRecord.schema "null" 64000 .zero = .ok w₀ ∧
    batches.flatten = returned w₀ [.appendTyped (FixedRecord.ofInt 1)] ∧
    closed.file = fileWith (headerFor FixedRecord.schema w₀.codec .zero) w₀.codec batches ∧
    (afterAll lateRequests w₀).file = closed.file ∧
    Request.run (.appendTyped (FixedRecord.ofInt 2)) closed =
      .ok () (closed.accept (TypedRecord.encode (FixedRecord.ofInt 2))) := by
  have hnull : CodecRegistry.standard.create "null" = .ok .null := rfl
  have hdevice : FileTree.untilZero "out" ≠ fullDevice := by decide
  have hplace : (({} : FileTree).creatable? "out").isSome := by decide +kernel
  obtain ⟨w₀, hcreate, hroom⟩ :=
    create_of_creatable hnull hdevice hplace FixedRecord.schema 64000 .zero
  obtain ⟨-, batches, closed, hbatches, -, hclose, -, hfile, hstays⟩ :=
    returned_until_closed hcreate hroom [.appendTyped (FixedRecord.ofInt 1)] (by simp)
  have hlate : afterAll lateRequests w₀ =
      afterAll [.appendTyped (FixedRecord.ofInt 2)] closed := by
    have hafter : Runs.after Request.close.run
        (afterAll [.appendTyped (FixedRecord.ofInt 1)] w₀) = closed := Runs.after_of_ok hclose
    rw [← hafter]
    rfl
  refine ⟨w₀, closed, batches, hcreate, hbatches, hfile, ?_, ?_⟩
  · rw [hlate]
    exact (hstays _).file_eq
  · have hrun := (hstays []).append_eq (.appendTyped (FixedRecord.ofInt 2)) _ trivial rfl
    rwa [if_neg (by decide +kernel)] at hrun

/-- Both appends return normally, and the file has the first record only. -/
theorem lost_behind_close : ∃ w₀ : Writer,
    create {} "out" FixedRecord.schema "null" 64000 .zero = .ok w₀ ∧
    returned w₀ lateRequests =
      [TypedRecord.encode (FixedRecord.ofInt 1), TypedRecord.encode (FixedRecord.ofInt 2)] ∧
    (finish (afterAll lateRequests w₀)).file =
      fileWith (headerFor FixedRecord.schema .null .zero) .null
        [[TypedRecord.encode (FixedRecord.ofInt 1)]] := by
  have hrun : (create {} "out" FixedRecord.schema "null" 64000 .zero).toOption.any (fun w₀ =>
      returned w₀ lateRequests ==
        [TypedRecord.encode (FixedRecord.ofInt 1), TypedRecord.encode (FixedRecord.ofInt 2)] &&
      (finish (afterAll lateRequests w₀)).file ==
        fileWith (headerFor FixedRecord.schema .null .zero) .null
          [[TypedRecord.encode (FixedRecord.ofInt 1)]]) = true := by
    decide +kernel
  cases hcreate : create {} "out" FixedRecord.schema "null" 64000 .zero with
  | error e =>
    rw [hcreate] at hrun
    cases hrun
  | ok w₀ =>
    rw [hcreate] at hrun
    simp only [Except.toOption, Option.any_some, Bool.and_eq_true, beq_iff_eq] at hrun
    exact ⟨w₀, rfl, hrun⟩

end BlockContainer.Writer
