import BlockContainer.Header.Basic

/-! # Random markers

A writer that is given no marker draws one, byte by byte, from a generator.
-/
namespace BlockContainer.SyncMarker

variable {γ : Type} [RandomGen γ]

def drawBytes : (n : Nat) → γ → Bytes → Bytes × γ
  | 0, g, drawn => (drawn, g)
  | n + 1, g, drawn =>
    let (b, g) := randNat g 0 255
    drawBytes n g (UInt8.ofNat b :: drawn)

theorem length_drawBytes (n : Nat) (g : γ) (drawn : Bytes) :
    (drawBytes n g drawn).1.length = n + drawn.length := by
  induction n generalizing g drawn with
  | zero => simp [drawBytes]
  | succ n ih =>
    simp only [drawBytes, ih, List.length_cons]
    omega

def draw (g : γ) : SyncMarker × γ :=
  (⟨(drawBytes size g []).1, by simp [length_drawBytes, size]⟩, (drawBytes size g []).2)

end BlockContainer.SyncMarker
