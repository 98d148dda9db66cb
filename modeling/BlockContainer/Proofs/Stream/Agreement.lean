import BlockContainer.Proofs.Record.Decoding
import BlockContainer.Proofs.Stream.Position

/-! # Buffers and streams agree

A buffer is compared with the length of a string before anything is taken from it, while a
stream is read in chunks until one comes up short. Asked for the same integers and strings
over the same bytes, both give the same values, use up the same bytes for each, and fail at
the same place.
-/
namespace BlockContainer

inductive Query where
  | long | string
deriving DecidableEq, Repr

abbrev Reply : Type := Int64 ⊕ Bytes

def Decoder.reply : Query → Decoding Reply
  | .long => Sum.inl <$> readLong
  | .string => Sum.inr <$> readBytes

def InputStream.reply : Query → Reading Reply
  | .long => Sum.inl <$> readLong
  | .string => Sum.inr <$> readString

/-- The replies up to the first failure, each with the position behind it, and whether there
was a failure. -/
def transcript {σ : Type} (reply : Query → EStateM FormatError σ Reply) (position : σ → Nat) :
    List Query → σ → List (Reply × Nat) × Bool
  | [], _ => ([], false)
  | query :: rest, s =>
    match reply query s with
    | .ok answer s' =>
      let later := transcript reply position rest s'
      ((answer, position s') :: later.1, later.2)
    | .error _ _ => ([], true)

def Abreast (kind : StreamKind) (d : Decoder) (s : InputStream) : Prop :=
  InputStream.At kind d.buffer d.position s

/-- Both come to the same value and stand at one place behind it, or both fail. -/
inductive Agree {α : Type} (kind : StreamKind) :
    EStateM.Result FormatError Decoder α → EStateM.Result FormatError InputStream α → Prop where
  | value {a : α} {d : Decoder} {s : InputStream} : Abreast kind d s → Agree kind (.ok a d) (.ok a s)
  | failure {e e' : FormatError} {d : Decoder} {s : InputStream} :
      Agree kind (.error e d) (.error e' s)

section Agreement

variable {kind : StreamKind} {d : Decoder} {s : InputStream} {α β : Type}

theorem Abreast.ofBytes (kind : StreamKind) (content : Bytes) :
    Abreast kind (.ofBytes content) (.ofBytes kind content) :=
  InputStream.At.ofBytes kind content

theorem Abreast.rest_eq (h : Abreast kind d s) : d.rest = s.available := by
  rw [d.rest_eq, InputStream.At.available h]

namespace Agree

theorem both {r : EStateM.Result FormatError Decoder α}
    {r' : EStateM.Result FormatError InputStream α} (h : Agree kind r r') :
    (∃ a d s, r = .ok a d ∧ r' = .ok a s ∧ Abreast kind d s) ∨
      ∃ e d e' s, r = .error e d ∧ r' = .error e' s := by
  cases h with
  | value h => exact .inl ⟨_, _, _, rfl, rfl, h⟩
  | failure => exact .inr ⟨_, _, _, _, rfl, rfl⟩

theorem bind {m : Decoding α} {m' : Reading α} {f : α → Decoding β} {f' : α → Reading β}
    (hm : Agree kind (m d) (m' s))
    (hf : ∀ a d' s', Abreast kind d' s' → Agree kind (f a d') (f' a s')) :
    Agree kind ((m >>= f) d) ((m' >>= f') s) := by
  obtain ⟨a, d', s', hrun, hrun', h⟩ | ⟨e, d', e', s', hrun, hrun'⟩ := hm.both
  · rw [Runs.bind_of_ok hrun, Runs.bind_of_ok hrun']
    exact hf a d' s' h
  · rw [Runs.bind_of_error hrun, Runs.bind_of_error hrun']
    exact .failure

theorem map {m : Decoding α} {m' : Reading α} (hm : Agree kind (m d) (m' s)) (g : α → β) :
    Agree kind ((g <$> m) d) ((g <$> m') s) :=
  hm.bind fun _ _ _ h => .value h

theorem readLong (h : Abreast kind d s) :
    Agree kind (Decoder.readLong d) (InputStream.readLong s) := by
  rw [Decoder.readLong, InputStream.readLong, h.rest_eq]
  cases Varint.scan s.available with
  | complete w n => exact .value (InputStream.At.move h n)
  | truncated n => exact .failure
  | overlong => exact .failure

/-- What is there at once is there in chunks, whatever is left for the last of them. -/
theorem take_readChunks (h : Abreast kind d s) (n : Nat) (otherwise : FormatError) :
    Agree kind (Decoder.take n d) (InputStream.readChunks otherwise n s) := by
  by_cases hn : n ≤ d.rest.length
  · have hlength : (d.rest.take n).length = n := List.length_take_of_le hn
    have hsplit := (List.take_append_drop n d.rest).symm
    have hbuffer := Decoder.takes_take (d.rest.take n) d _ hsplit
    obtain ⟨s', hstream, hat⟩ := InputStream.takes_readChunks otherwise (d.rest.take n) h
      (d.rest_eq.symm.trans hsplit)
    rw [hlength] at hbuffer hstream hat
    rw [hbuffer, hstream]
    exact .value hat
  · have hbuffer : Decoder.take n d = .error (.bufferEnd n d.position d.size) d := by
      have hshort : (d.rest.take n).length ≠ n := by
        rw [List.length_take]
        omega
      simp only [Decoder.take, if_neg hshort]
    rw [hbuffer]
    cases hstream : InputStream.readChunks otherwise n s with
    | ok b s' =>
      obtain ⟨hlength, hbehind⟩ := InputStream.behind_of_readChunks h hstream
      have hle := hbehind.begins.length_le
      rw [← d.rest_eq] at hle
      omega
    | error e s' => exact .failure

theorem readString (h : Abreast kind d s) :
    Agree kind (Decoder.readBytes d) (InputStream.readString s) := by
  apply (readLong h).bind
  intro length d' s' h'
  split
  · exact .failure
  · exact take_readChunks h' _ _

theorem reply (h : Abreast kind d s) (query : Query) :
    Agree kind (Decoder.reply query d) (InputStream.reply query s) := by
  cases query with
  | long => exact (readLong h).map _
  | string => exact (readString h).map _

end Agree

theorem Abreast.transcript_eq (h : Abreast kind d s) (queries : List Query) :
    transcript InputStream.reply InputStream.position queries s =
      transcript Decoder.reply Decoder.position queries d := by
  induction queries generalizing d s with
  | nil => rfl
  | cons query rest ih =>
    rw [transcript, transcript]
    obtain ⟨a, d', s', hbuffer, hstream, h'⟩ | ⟨e, d', e', s', hbuffer, hstream⟩ :=
      (Agree.reply h query).both
    · have hposition : s'.position = d'.position := h'.position_eq
      simp only [hbuffer, hstream, ih h', hposition]
    · simp only [hbuffer, hstream]

/-- Whatever bytes a buffer and a stream start from and whatever integers and strings they are
asked for, the replies are the same up to the first failure, with the same positions behind
them, and the failure comes at the same query. -/
theorem transcripts_agree (kind : StreamKind) (content : Bytes) (queries : List Query) :
    transcript InputStream.reply InputStream.position queries (.ofBytes kind content) =
      transcript Decoder.reply Decoder.position queries (.ofBytes content) :=
  (Abreast.ofBytes kind content).transcript_eq queries

end Agreement
end BlockContainer
