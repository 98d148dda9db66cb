import BlockContainer.Output
import BlockContainer.Proofs.Runs

/-! # What a device with room takes

A stream on a device that is not full delivers every piece, so after any writes its file
holds the bytes of the pieces in their order.
-/
namespace BlockContainer

def Piece.allBytes (pieces : List Piece) : Bytes := pieces.flatMap Piece.bytes

namespace Piece

@[simp] theorem allBytes_append (l m : List Piece) :
    allBytes (l ++ m) = allBytes l ++ allBytes m :=
  List.flatMap_append

@[simp] theorem allBytes_cons (p : Piece) (l : List Piece) :
    allBytes (p :: l) = p.bytes ++ allBytes l := rfl

@[simp] theorem allBytes_nil : allBytes [] = [] := rfl

@[simp] theorem allBytes_long (n : Int64) : allBytes (long n) = Encode.long n := by
  rw [allBytes, long, List.flatMap_map]
  exact List.flatMap_singleton' _

@[simp] theorem allBytes_string (b : Bytes) : allBytes (string b) = Encode.bytes b := by
  rw [string, allBytes_append, allBytes_long, Encode.bytes]
  simp [Piece.bytes]

end Piece

namespace OutputStream

/-- The device has room, and nothing has failed. -/
structure Delivers (s : OutputStream) : Prop where
  not_full : s.full = false
  not_failed : s.failed = false

def behind (s : OutputStream) (b : Bytes) : OutputStream := { s with accepted := s.accepted ++ b }

variable {s : OutputStream}

theorem Delivers.behind (h : s.Delivers) (b : Bytes) : (s.behind b).Delivers :=
  ⟨h.not_full, h.not_failed⟩

theorem write_of_delivers (h : s.Delivers) (p : Piece) : write p s = .ok () (s.behind p.bytes) := by
  have hgoes : (s.failed || (s.full && !s.holdsBack p)) = false := by
    rw [h.not_failed, h.not_full]
    rfl
  rw [write, hgoes]
  rfl

theorem forM_write_of_delivers (h : s.Delivers) (pieces : List Piece) :
    pieces.forM write s = .ok () (s.behind (Piece.allBytes pieces)) := by
  induction pieces generalizing s with
  | nil =>
    change EStateM.Result.ok () s = _
    rw [behind, Piece.allBytes_nil, List.append_nil]
  | cons p rest ih =>
    change (write p >>= fun _ => rest.forM write) s = _
    rw [Runs.bind_of_ok (write_of_delivers h p), ih (h.behind _)]
    simp only [behind, Piece.allBytes_cons, List.append_assoc]

theorem writeAll_of_delivers (h : s.Delivers) (pieces : List Piece) :
    writeAll pieces s =
      .ok (Piece.allBytes pieces).length (s.behind (Piece.allBytes pieces)) := by
  have hsize : (s.behind (Piece.allBytes pieces)).position - s.position =
      (Piece.allBytes pieces).length := by
    simp [position, behind]
  rw [writeAll, Runs.get_bind, Runs.bind_of_ok (forM_write_of_delivers h pieces), Runs.get_bind,
    hsize]
  rfl

theorem behind_of_forM_write {pieces : List Piece} {s' : OutputStream} {u : Unit}
    (h : pieces.forM write s = .ok u s') : s' = s.behind (Piece.allBytes pieces) := by
  induction pieces generalizing s with
  | nil =>
    cases h
    rw [behind, Piece.allBytes_nil, List.append_nil]
  | cons p rest ih =>
    obtain ⟨_, s₁, hfirst, hrest⟩ := bind_eq_ok_iff.1 h
    rw [write] at hfirst
    split at hfirst
    · cases hfirst
    · cases hfirst
      rw [ih hrest]
      simp only [behind, Piece.allBytes_cons, List.append_assoc]

/-- What was written stands behind what was there, on a full device as well. -/
theorem behind_of_writeAll {pieces : List Piece} {s' : OutputStream} {n : Nat}
    (h : writeAll pieces s = .ok n s') :
    n = (Piece.allBytes pieces).length ∧ s' = s.behind (Piece.allBytes pieces) := by
  obtain ⟨_, _, hget, h⟩ := bind_eq_ok_iff.1 h
  cases hget
  obtain ⟨_, s₁, hrun, h⟩ := bind_eq_ok_iff.1 h
  cases h
  have hbehind := behind_of_forM_write hrun
  refine ⟨?_, hbehind⟩
  simp [hbehind, position, behind]

/-- A full device stays full, and what its stream holds back stays there. -/
def Clogged (s : OutputStream) : Prop := s.full = true ∧ s.accepted ≠ []

theorem keeps_writeAll (pieces : List Piece) : Runs.Keeps Clogged (writeAll pieces) := by
  have hwrite (p : Piece) : Runs.Keeps Clogged (write p) := by
    intro s hs
    rw [Runs.after, write]
    split
    · next h =>
      split at h
      · cases h
      · cases h
        exact ⟨hs.1, by simp [hs.2]⟩
    · next h =>
      split at h
      · cases h
        exact hs
      · cases h
  have hall : Runs.Keeps Clogged (pieces.forM write) := by
    induction pieces with
    | nil => exact Runs.Keeps.pure _
    | cons p rest ih => exact (hwrite p).bind fun _ => ih
  apply Runs.Keeps.get
  intro s hs
  have hend : Runs.Keeps Clogged
      (do return (← get).position - s.position : EStateM Error OutputStream Nat) :=
    Runs.Keeps.get fun _ hs => hs
  exact (hall.bind fun _ => hend) hs

end OutputStream
end BlockContainer
