import BlockContainer.Bytes

/-! # Metadata maps

A map from keys to values, both byte strings, kept in the byte order of the keys. The
order is part of the type, so two maps with the same entries are equal.
-/
namespace BlockContainer

structure Metadata where
  entries : List (Bytes × Bytes)
  ordered : entries.Pairwise fun a b => a.1 < b.1
deriving DecidableEq

namespace Metadata

def empty : Metadata := ⟨[], .nil⟩

instance : EmptyCollection Metadata := ⟨empty⟩
instance : Inhabited Metadata := ⟨empty⟩

def size (m : Metadata) : Nat := m.entries.length

def get? (m : Metadata) (key : Bytes) : Option Bytes :=
  (m.entries.find? fun e => e.1 == key).map Prod.snd

def place (key value : Bytes) : List (Bytes × Bytes) → List (Bytes × Bytes)
  | [] => [(key, value)]
  | e :: rest =>
    if key < e.1 then (key, value) :: e :: rest
    else if e.1 < key then e :: place key value rest
    else (e.1, value) :: rest

theorem key_of_mem_place {key value : Bytes} {l : List (Bytes × Bytes)} {e : Bytes × Bytes}
    (h : e ∈ place key value l) : e.1 = key ∨ ∃ e' ∈ l, e.1 = e'.1 := by
  induction l with
  | nil => simp_all [place]
  | cons a rest ih =>
    rw [place] at h
    split at h
    · rcases List.mem_cons.1 h with rfl | h
      · exact .inl rfl
      · exact .inr ⟨e, h, rfl⟩
    · split at h
      · rcases List.mem_cons.1 h with rfl | h
        · exact .inr ⟨e, by simp, rfl⟩
        · rcases ih h with h | ⟨e', h', h⟩
          · exact .inl h
          · exact .inr ⟨e', by simp [h'], h⟩
      · rcases List.mem_cons.1 h with rfl | h
        · exact .inr ⟨a, by simp, rfl⟩
        · exact .inr ⟨e, by simp [h], rfl⟩

theorem ordered_place (key value : Bytes) {l : List (Bytes × Bytes)}
    (h : l.Pairwise fun a b => a.1 < b.1) :
    (place key value l).Pairwise fun a b => a.1 < b.1 := by
  induction l with
  | nil => simp [place]
  | cons a rest ih =>
    obtain ⟨ha, hrest⟩ := List.pairwise_cons.1 h
    rw [place]
    split
    · next hk =>
      refine List.pairwise_cons.2 ⟨fun b hb => ?_, h⟩
      rcases List.mem_cons.1 hb with rfl | hb
      · exact hk
      · exact List.lt_trans hk (ha b hb)
    · split
      · next hk =>
        refine List.pairwise_cons.2 ⟨fun b hb => ?_, ih hrest⟩
        rcases key_of_mem_place hb with h | ⟨e, he, h⟩
        · rw [h]
          exact hk
        · rw [h]
          exact ha e he
      · exact List.pairwise_cons.2 ⟨ha, hrest⟩

def insert (m : Metadata) (key value : Bytes) : Metadata :=
  ⟨place key value m.entries, ordered_place key value m.ordered⟩

/-- Of entries with the same key the last one stays. -/
def ofList (l : List (Bytes × Bytes)) : Metadata := l.foldl (fun m e => m.insert e.1 e.2) ∅

end Metadata
end BlockContainer
