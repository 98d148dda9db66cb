import BlockContainer.Proofs.Deflate.Stored
import BlockContainer.Proofs.Header.RoundTrip
import BlockContainer.Writer

/-! # What a writer makes of its calls

Records that are accepted wait in the order of the calls, and go out in batches, each of
them as one block. Which batches there are depends on the sync interval and the calls alone.
A writer whose device is full cannot be closed, and on any other device its file holds the
header and the blocks.
-/
namespace BlockContainer.Writer

variable [Deflate.Service]

/-- A record and the encoding of it that goes into the file. -/
structure Entry where
  bytes : Bytes
  record : Record

namespace Entry

def data (batch : List Entry) : Bytes := (batch.map bytes).flatten

def block (codec : Codec) (batch : List Entry) : Block where
  recordCount := Int64.ofInt batch.length
  payload := codec.packed (data batch)

def batch (waiting : List Entry) : List (List Entry) := if waiting.isEmpty then [] else [waiting]

def settle (interval : Nat) (waiting : List Entry) : List (List Entry) × List Entry :=
  if interval ≤ (data waiting).length then (batch waiting, []) else ([], waiting)

def toBytes (codec : Codec) (marker : SyncMarker) (batches : List (List Entry)) : Bytes :=
  batches.flatMap fun batch => (block codec batch).toBytes marker

omit [Deflate.Service] in
theorem flatten_batch (waiting : List Entry) : (batch waiting).flatten = waiting := by
  cases waiting <;> simp [batch]

omit [Deflate.Service] in
/-- What is settled goes out or waits. -/
theorem flatten_settle (interval : Nat) (waiting : List Entry) :
    (settle interval waiting).1.flatten ++ (settle interval waiting).2 = waiting := by
  rw [settle]
  split
  · rw [flatten_batch, List.append_nil]
  · rfl

end Entry

/-- What can be asked of a writer between its creation and its end: to accept a record, as a
value, as one of a type with this schema or as an encoding, or to end the present block. A
record of another schema can be offered, but is refused. -/
inductive Call (schema : Schema) : Type 1 where
  | append (r : Record) (typed : r.WellTyped)
  | appendTyped {α : Type} [TypedRecord α] [LawfulRecord α] (a : α)
      (same : TypedRecord.schema α = schema)
  | appendEncoded (b : Bytes) (r : Record) (encodes : Record.Encodes schema b r)
  | sync

namespace Call

variable {schema : Schema}

def perform : Call schema → Writer → Writer
  | append r _ => Runs.after (Writer.append r)
  | appendTyped a _ => Runs.after (Writer.appendTyped a)
  | appendEncoded b _ _ => Runs.after (Writer.appendEncoded b)
  | sync => Runs.after Writer.sync

def entries : Call schema → List Entry
  | append r _ => if r.schema = schema then [⟨r.values.flatMap Value.encode, r⟩] else []
  | appendTyped a _ => [⟨TypedRecord.encode a, LawfulRecord.toRecord a⟩]
  | appendEncoded b r _ => [⟨b, r⟩]
  | sync => []

def records (call : Call schema) : List Record := call.entries.map Entry.record

def divide (interval : Nat) (waiting : List Entry) (call : Call schema) :
    List (List Entry) × List Entry :=
  match call with
  | sync => (Entry.batch waiting, [])
  | call => Entry.settle interval (waiting ++ call.entries)

end Call

/-- The batches that go out on the calls and at the end. -/
def batches {schema : Schema} (interval : Nat) : List Entry → List (Call schema) → List (List Entry)
  | waiting, [] => Entry.batch waiting
  | waiting, call :: rest =>
    (call.divide interval waiting).1 ++ batches interval (call.divide interval waiting).2 rest

/-- A property of writers that lasts, since taking a record and writing a block keep it. -/
structure Lasting (P : Writer → Prop) : Prop where
  accept : ∀ {w}, P w → ∀ b, P (w.accept b)
  writeWaiting : Runs.Keeps P writeWaiting

namespace Lasting

variable {P : Writer → Prop}

theorem appendEncoded (h : Lasting P) (b : Bytes) : Runs.Keeps P (appendEncoded b) := by
  refine (Runs.Keeps.modify fun w hw => h.accept hw b).bind fun _ => Runs.Keeps.get ?_
  intro w hw
  split
  · exact h.writeWaiting hw
  · exact hw

theorem append (h : Lasting P) (r : Record) : Runs.Keeps P (append r) := by
  apply Runs.Keeps.get
  intro w hw
  exact ((Runs.Keeps.ensure _ _).bind fun _ => (Runs.Keeps.check _).bind fun b =>
    h.appendEncoded b) hw

theorem sync (h : Lasting P) : Runs.Keeps P sync := by
  have hend : Runs.Keeps P (do return (← get).bytesWritten : Step Nat) :=
    Runs.Keeps.get fun _ hw => hw
  exact h.writeWaiting.bind fun _ => hend

theorem perform (h : Lasting P) {schema : Schema} (call : Call schema) {w : Writer} (hw : P w) :
    P (call.perform w) := by
  cases call with
  | append r typed => exact h.append r hw
  | appendTyped a same => exact h.appendEncoded _ hw
  | appendEncoded b r encodes => exact h.appendEncoded _ hw
  | sync => exact h.sync hw

theorem performAll (h : Lasting P) {schema : Schema} (calls : List (Call schema)) {w : Writer}
    (hw : P w) : P (calls.foldl (fun w call => call.perform w) w) := by
  induction calls generalizing w with
  | nil => exact hw
  | cons call rest ih => exact ih (h.perform call hw)

end Lasting

structure Clogged (w : Writer) : Prop where
  output : w.output.Clogged
  isOpen : w.isOpen = true

theorem lasting_clogged : Lasting Clogged where
  accept h _ := ⟨h.output, h.isOpen⟩
  writeWaiting := by
    apply Runs.Keeps.get
    intro w hw
    split
    · exact hw
    · refine ((Runs.Keeps.ensure _ _).bind fun _ => (Runs.Keeps.check _).bind fun payload => ?_) hw
      refine Runs.Keeps.bind ?_ fun size => Runs.Keeps.modify fun w h => ⟨h.output, h.isOpen⟩
      exact (OutputStream.keeps_writeAll _).focus (fun _ h => h.output) fun _ _ h ht =>
        ⟨ht, h.isOpen⟩

theorem close_ne_ok {w w' : Writer} (h : w.Clogged) : close w ≠ .ok () w' := by
  intro hclose
  obtain ⟨_, _, hget, hclose⟩ := bind_eq_ok_iff.1 hclose
  cases hget
  rw [if_pos h.isOpen] at hclose
  obtain ⟨_, w₁, hwrite, hclose⟩ := bind_eq_ok_iff.1 hclose
  have hleft := lasting_clogged.writeWaiting h
  rw [Runs.after_of_ok hwrite] at hleft
  obtain ⟨_, _, hget, hclose⟩ := bind_eq_ok_iff.1 hclose
  cases hget
  obtain ⟨_, _, hset, hclose⟩ := bind_eq_ok_iff.1 hclose
  cases hset
  have hcloses := (ensure_eq_ok_iff.1 hclose).1
  rw [OutputStream.closes, hleft.output.1] at hcloses
  simp [hleft.output.2] at hcloses

/-- Since its creation the writer has put these batches into its file, and these records wait. -/
structure Holding (w₀ w : Writer) (done : List (List Entry)) (waiting : List Entry) : Prop where
  schema_eq : w.schema = w₀.schema
  codec_eq : w.codec = w₀.codec
  header_eq : w.header = w₀.header
  interval_eq : w.syncInterval = w₀.syncInterval
  isOpen : w.isOpen = true
  delivers : w.output.Delivers
  accepted : w.output.accepted =
    w₀.output.accepted ++ Entry.toBytes w₀.codec w₀.header.marker done
  waiting_eq : w.waiting = (waiting.map Entry.bytes).reverse

/-- The records that wait between two calls do not reach the sync interval. -/
structure Settled (w₀ w : Writer) (done : List (List Entry)) (waiting : List Entry) : Prop
    extends Holding w₀ w done waiting where
  small : (Entry.data waiting).length < w₀.syncInterval

namespace Holding

variable {w₀ w : Writer} {done : List (List Entry)} {waiting : List Entry}

theorem emptied (h : Holding w₀ w done waiting) (hne : waiting ≠ []) (block : Block) (size : Nat) :
    Holding w₀ (Writer.emptied
      { w with output := w.output.behind ((Entry.block w₀.codec waiting).toBytes w₀.header.marker) }
      block size) (done ++ Entry.batch waiting) [] where
  schema_eq := h.schema_eq
  codec_eq := h.codec_eq
  header_eq := h.header_eq
  interval_eq := h.interval_eq
  isOpen := h.isOpen
  delivers := h.delivers.behind _
  accepted := by
    simp only [Writer.emptied, OutputStream.behind, h.accepted, Entry.toBytes, Entry.batch]
    simp [hne]
  waiting_eq := rfl

theorem writeWaiting_ok (h : Holding w₀ w done waiting) (hc : w₀.codec.Compresses) :
    ∃ w', writeWaiting w = .ok () w' ∧ Settled w₀ w' (done ++ Entry.batch waiting) [] := by
  by_cases hne : waiting = []
  · have hempty : w.waiting.isEmpty = true := by simp [h.waiting_eq, hne]
    refine ⟨w, by rw [writeWaiting, Runs.get_bind, if_pos hempty]; rfl, ?_⟩
    have hdone : done ++ Entry.batch [] = done := List.append_nil _
    subst hne
    rw [hdone]
    exact ⟨h, w₀.syncInterval_pos⟩
  · have hempty : ¬w.waiting.isEmpty = true := by simp [h.waiting_eq, hne]
    have hdata : w.waiting.reverse.flatten = Entry.data waiting := by
      rw [h.waiting_eq, List.reverse_reverse, Entry.data]
    have hcount : w.waiting.length = waiting.length := by
      rw [h.waiting_eq, List.length_reverse, List.length_map]
    have hpayload : w.codec.compress w.waiting.reverse.flatten =
        .ok (w₀.codec.packed (Entry.data waiting)) := by
      rw [hdata, h.codec_eq, hc]
    have hwrite : (Entry.block w₀.codec waiting).write w.header.marker w.output =
        .ok ((Entry.block w₀.codec waiting).toBytes w₀.header.marker).length
          (w.output.behind ((Entry.block w₀.codec waiting).toBytes w₀.header.marker)) := by
      rw [h.header_eq]
      exact OutputStream.writeAll_of_delivers h.delivers _
    refine ⟨_, ?_, h.emptied hne (Entry.block w₀.codec waiting)
      ((Entry.block w₀.codec waiting).toBytes w₀.header.marker).length, w₀.syncInterval_pos⟩
    rw [writeWaiting, Runs.get_bind, if_neg hempty, Runs.ensure_bind h.isOpen,
      Runs.check_bind hpayload, hcount]
    exact Runs.bind_of_ok (Runs.focus_of_ok hwrite)

/-- The record waits behind the others, and all of them go out if they are long enough. -/
theorem appendEncoded_ok (h : Holding w₀ w done waiting) (hc : w₀.codec.Compresses) (e : Entry) :
    ∃ w', appendEncoded e.bytes w = .ok () w' ∧
      Settled w₀ w' (done ++ (Entry.settle w₀.syncInterval (waiting ++ [e])).1)
        (Entry.settle w₀.syncInterval (waiting ++ [e])).2 := by
  have hwaiting : (w.accept e.bytes).waiting = ((waiting ++ [e]).map Entry.bytes).reverse := by
    simp [accept, h.waiting_eq]
  have hsize : (w.accept e.bytes).waitingSize = (Entry.data (waiting ++ [e])).length := by
    rw [(w.accept e.bytes).waitingSize_eq, hwaiting, Entry.data]
    simp [Nat.add_comm]
  have haccept : Holding w₀ (w.accept e.bytes) done (waiting ++ [e]) :=
    ⟨h.schema_eq, h.codec_eq, h.header_eq, h.interval_eq, h.isOpen, h.delivers, h.accepted, hwaiting⟩
  rw [appendEncoded, Runs.modify_bind, Runs.get_bind, hsize, haccept.interval_eq]
  by_cases hlong : w₀.syncInterval ≤ (Entry.data (waiting ++ [e])).length
  · have hsettle : Entry.settle w₀.syncInterval (waiting ++ [e]) =
        (Entry.batch (waiting ++ [e]), []) := if_pos hlong
    rw [if_pos hlong, hsettle]
    exact haccept.writeWaiting_ok hc
  · have hsettle : Entry.settle w₀.syncInterval (waiting ++ [e]) = ([], waiting ++ [e]) :=
      if_neg hlong
    rw [if_neg hlong, hsettle, List.append_nil]
    exact ⟨_, rfl, haccept, Nat.lt_of_not_le hlong⟩

theorem append_refused {r : Record} (h : r.schema ≠ w.schema) :
    append r w = .error (.argument (.recordSchema r.schema.fullName w.schema.fullName)) w := by
  rw [append, Runs.get_bind, ensure, if_neg h]
  rfl

theorem append_taken {r : Record} (h : r.schema = w.schema) (htyped : r.WellTyped) :
    append r w = appendEncoded (r.values.flatMap Value.encode) w := by
  rw [append, Runs.get_bind, Runs.ensure_bind h, Runs.check_bind (Record.encode_of_wellTyped htyped)]

end Holding

namespace Settled

variable {w₀ w : Writer} {done : List (List Entry)} {waiting : List Entry}

theorem perform (h : Settled w₀ w done waiting) (hc : w₀.codec.Compresses)
    (call : Call w₀.schema) :
    Settled w₀ (call.perform w) (done ++ (call.divide w₀.syncInterval waiting).1)
      (call.divide w₀.syncInterval waiting).2 := by
  have haccept (e : Entry) :
      Settled w₀ (Runs.after (appendEncoded e.bytes) w)
        (done ++ (Entry.settle w₀.syncInterval (waiting ++ [e])).1)
        (Entry.settle w₀.syncInterval (waiting ++ [e])).2 := by
    obtain ⟨w', hok, hsettled⟩ := h.appendEncoded_ok hc e
    rw [Runs.after_of_ok hok]
    exact hsettled
  cases call with
  | append r typed =>
    by_cases hschema : r.schema = w₀.schema
    · have htaken := Holding.append_taken (hschema.trans h.schema_eq.symm) typed
      simp only [Call.perform, Call.divide, Call.entries, hschema, if_true]
      rw [Runs.after, htaken]
      exact haccept ⟨_, r⟩
    · have hrefused := Holding.append_refused (w := w) (by rwa [h.schema_eq])
      have hsettle : Entry.settle w₀.syncInterval waiting = ([], waiting) :=
        if_neg (Nat.not_le.2 h.small)
      simp only [Call.perform, Call.divide, Call.entries, hschema, if_false, List.append_nil,
        Runs.after_of_error hrefused, hsettle]
      exact h
  | appendTyped a same => exact haccept ⟨_, LawfulRecord.toRecord a⟩
  | appendEncoded b r encodes => exact haccept ⟨b, r⟩
  | sync =>
    obtain ⟨w', hok, hsettled⟩ := h.writeWaiting_ok hc
    have hsync : sync w = .ok w'.bytesWritten w' := by
      rw [sync, Runs.bind_of_ok hok]
      rfl
    simp only [Call.perform, Call.divide, Runs.after_of_ok hsync]
    exact hsettled

/-- What calls leave behind, in batches and in what waits. -/
theorem performAll (h : Settled w₀ w done waiting) (hc : w₀.codec.Compresses)
    (calls : List (Call w₀.schema)) :
    ∃ sent left, Settled w₀ (calls.foldl (fun w call => call.perform w) w) (done ++ sent) left ∧
      batches w₀.syncInterval waiting calls = sent ++ Entry.batch left := by
  induction calls generalizing w done waiting with
  | nil => exact ⟨[], waiting, by simpa using h, rfl⟩
  | cons call rest ih =>
    obtain ⟨sent, left, hrest, hbatches⟩ := ih (h.perform hc call)
    refine ⟨(call.divide w₀.syncInterval waiting).1 ++ sent, left, ?_, ?_⟩
    · rw [← List.append_assoc]
      exact hrest
    · rw [batches, hbatches, List.append_assoc]

/-- Closing puts what waits into the file. -/
theorem close_eq (h : Settled w₀ w done waiting) (hc : w₀.codec.Compresses) :
    ∃ w', close w = .ok () { w' with isOpen := false } ∧
      Settled w₀ w' (done ++ Entry.batch waiting) [] := by
  obtain ⟨w', hok, hsettled⟩ := h.writeWaiting_ok hc
  have hcloses : w'.output.closes = true := by
    rw [OutputStream.closes, hsettled.delivers.not_full]
    rfl
  refine ⟨w', ?_, hsettled⟩
  rw [close, Runs.get_bind, if_pos h.isOpen, Runs.bind_of_ok hok, Runs.get_bind, Runs.set_bind]
  rw [ensure, if_pos hcloses]
  rfl

theorem file_eq (h : Settled w₀ w done waiting) :
    w.file = w₀.output.accepted ++ Entry.toBytes w₀.codec w₀.header.marker done := by
  rw [← h.accepted, file, if_neg (by simp [h.delivers.not_full])]

theorem close_ok (h : Settled w₀ w done waiting) (hc : w₀.codec.Compresses) :
    ∃ w', close w = .ok () w' ∧ w'.file = w₀.output.accepted ++
      Entry.toBytes w₀.codec w₀.header.marker (done ++ Entry.batch waiting) := by
  obtain ⟨w', hclose, hsettled⟩ := h.close_eq hc
  exact ⟨_, hclose, hsettled.file_eq⟩

end Settled

structure Created (w₀ : Writer) (schema : Schema) (codecName : Bytes) (interval : Nat)
    (marker : SyncMarker) : Prop where
  schema_eq : w₀.schema = schema
  codec_found : CodecRegistry.standard.create codecName = .ok w₀.codec
  interval_eq : w₀.syncInterval = max interval 1
  marker_eq : w₀.header.marker = marker
  accepted : w₀.output.accepted = (headerFor schema w₀.codec marker).toBytes
  written : w₀.bytesWritten = (headerFor schema w₀.codec marker).toBytes.length
  waiting_eq : w₀.waiting = []
  isOpen : w₀.isOpen = true
  not_failed : w₀.output.failed = false

omit [Deflate.Service] in
theorem device?_new {t : FileTree} {path : Bytes} {s : OutputStream} (h : device? t path = some s) :
    s.accepted = [] ∧ s.failed = false := by
  simp only [device?] at h
  split at h
  · cases h
    exact ⟨rfl, rfl⟩
  · split at h
    · cases h
      exact ⟨rfl, rfl⟩
    · cases h

omit [Deflate.Service] in
theorem created_of_create {t : FileTree} {filename codecName : Bytes} {schema : Schema}
    {interval : Nat} {marker : SyncMarker} {w₀ : Writer}
    (h : create t filename schema codecName interval marker = .ok w₀) :
    Created w₀ schema codecName interval marker := by
  cases hcodec : CodecRegistry.standard.create codecName with
  | error e =>
    simp only [create, hcodec, bind, Except.bind, Except.mapError] at h
    cases h
  | ok codec =>
    simp only [create, hcodec, bind, Except.bind, Except.mapError] at h
    split at h
    · cases h
    · next device hdevice =>
      obtain ⟨hnew, hfailed⟩ := device?_new hdevice
      split at h
      · cases h
      · next header output hwrite =>
        cases h
        obtain ⟨size, s', hall, hwrite⟩ := bind_eq_ok_iff.1 hwrite
        cases hwrite
        obtain ⟨hsize, rfl⟩ := OutputStream.behind_of_writeAll hall
        exact ⟨rfl, hcodec, rfl, rfl, by rw [OutputStream.behind, hnew]; rfl, hsize, rfl, rfl,
          hfailed⟩

omit [Deflate.Service] in
theorem create_of_creatable {t : FileTree} {filename codecName : Bytes} {codec : Codec}
    (hcodec : CodecRegistry.standard.create codecName = .ok codec)
    (hdevice : FileTree.untilZero filename ≠ fullDevice) (hplace : (t.creatable? filename).isSome)
    (schema : Schema) (interval : Nat) (marker : SyncMarker) :
    ∃ w₀, create t filename schema codecName interval marker = .ok w₀ ∧ w₀.output.full = false := by
  have hroom : OutputStream.Delivers { full := false } := ⟨rfl, rfl⟩
  have hwrite := OutputStream.writeAll_of_delivers hroom (headerFor schema codec marker).pieces
  have hheader : (headerFor schema codec marker).write { full := false } = _ :=
    Runs.bind_of_ok hwrite
  have hopen : device? t filename = some { full := false } := by
    rw [device?, if_neg hdevice, if_pos hplace]
  simp only [create, hcodec, bind, Except.bind, Except.mapError, hopen, hheader]
  exact ⟨_, rfl, rfl⟩

theorem Created.settled {schema : Schema} {codecName : Bytes} {interval : Nat} {marker : SyncMarker}
    {w₀ : Writer} (h : Created w₀ schema codecName interval marker)
    (hroom : w₀.output.full = false) : Settled w₀ w₀ [] [] :=
  ⟨⟨rfl, rfl, rfl, rfl, h.isOpen, ⟨hroom, h.not_failed⟩, (List.append_nil _).symm, h.waiting_eq⟩,
    w₀.syncInterval_pos⟩

/-- A writer with room on its device can be closed whatever it was asked for, and its file
holds the header and the blocks of the batches. -/
theorem close_of_room [Deflate.Conforming] {schema : Schema} {codecName : Bytes} {interval : Nat}
    {marker : SyncMarker} {w₀ : Writer} (h : Created w₀ schema codecName interval marker)
    (hroom : w₀.output.full = false) (calls : List (Call schema)) :
    ∃ w, close (calls.foldl (fun w call => call.perform w) w₀) = .ok () w ∧
      w.file = (headerFor schema w₀.codec marker).toBytes ++
        Entry.toBytes w₀.codec marker (batches (max interval 1) [] calls) := by
  obtain rfl := h.schema_eq
  have hc := Codec.compresses_of_standard h.codec_found
  obtain ⟨sent, left, hleft, hbatches⟩ := (h.settled hroom).performAll hc calls
  obtain ⟨w, hok, hfile⟩ := hleft.close_ok hc
  refine ⟨w, hok, ?_⟩
  rw [hfile, h.accepted, h.marker_eq, ← h.interval_eq, hbatches, List.nil_append]

theorem room_of_close {schema : Schema} {codecName : Bytes} {interval : Nat} {marker : SyncMarker}
    {w₀ w : Writer} (h : Created w₀ schema codecName interval marker) (calls : List (Call schema))
    (hclose : close (calls.foldl (fun w call => call.perform w) w₀) = .ok () w) :
    w₀.output.full = false := by
  apply Bool.eq_false_iff.2
  intro hfull
  have hclogged : Clogged w₀ := by
    refine ⟨⟨hfull, ?_⟩, h.isOpen⟩
    rw [h.accepted, Header.toBytes_eq]
    exact List.cons_ne_nil _ _
  exact close_ne_ok (lasting_clogged.performAll calls hclogged) hclose

end BlockContainer.Writer
