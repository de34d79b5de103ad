import DjgppLibc.NewMalloc
import Mathlib.Data.List.Pairwise

/-!
# Header fields as functions of the block address

As long as blocks do not overlap, the header words of the byte memory behave
like independent functions `Field → address → word`. A view names the blocks,
the bytes each of them owns, the spare blocks whose first data word may hold
`prevfree`, and the held bytes which no header store may touch. `Sim` relates
a heap to such functions along a sequence of stores. It also keeps the held
bytes and checks every store against the extent of its block.
-/
namespace DjgppLibc.NewMalloc
open ByteMemory

abbrev Fields := Field → ℕ → ℕ

def Fields.set (F : Fields) (f : Field) (a v : ℕ) : Fields :=
  fun g b => if g = f ∧ b = a then v else F g b

@[simp] theorem Fields.set_apply (F : Fields) (f g : Field) (a b v : ℕ) :
    F.set f a v g b = if g = f ∧ b = a then v else F g b := rfl

def Event.Ok : Event → Prop
  | .write _ off len ext => off + len ≤ ext
  | .listed _ size => 24 ≤ size
  | .bucket b => b < 32
  | .split size => 24 ≤ size
  | .badcall _ => False
  | .fouledLastsbrk => False

instance (e : Event) : Decidable e.Ok := by
  cases e <;> (unfold Event.Ok; infer_instance)

section
variable {s t : Heap} {f g : Field} {a b v ext : ℕ}

theorem get_lt (s : Heap) (f : Field) (a : ℕ) : s.get f a < 4294967296 := load32_lt _ _

@[simp] theorem get_log (s : Heap) (e : Event) : (s.log e).get f a = s.get f a := rfl

theorem get_setIn_same : (s.setIn ext f a v).get f a = v % 4294967296 := load32_store32_same _ _ _

theorem get_setIn_far (h : a + f.offset + 4 ≤ b + g.offset ∨ b + g.offset + 4 ≤ a + f.offset) :
    (s.setIn ext g b v).get f a = s.get f a := load32_store32_ne _ _ h

theorem setIn_mem_out {i : ℕ} (h : i < a + f.offset ∨ a + f.offset + 4 ≤ i) :
    (s.setIn ext f a v).mem i = s.mem i := store32_out _ _ h

theorem get_congr (h : ∀ i, a + f.offset ≤ i → i < a + f.offset + 4 → t.mem i = s.mem i) :
    t.get f a = s.get f a := load32_congr h

theorem Field.offset_le (f : Field) : f.offset ≤ 16 := by cases f <;> decide

theorem Field.offset_le_of_ne (h : f ≠ .prevfree) : f.offset ≤ 12 := by
  cases f <;> first | decide | exact absurd rfl h

theorem Field.offset_far (h : f ≠ g) : f.offset + 4 ≤ g.offset ∨ g.offset + 4 ≤ f.offset := by
  cases f <;> cases g <;> first | exact absurd rfl h | decide

end

structure View where
  blocks : Set ℕ
  ext : ℕ → ℕ
  spare : Set ℕ
  held : Set ℕ

namespace View

structure Ok (V : View) : Prop where
  big : ∀ a ∈ V.blocks, 16 ≤ V.ext a
  spaced : ∀ a ∈ V.blocks, ∀ b ∈ V.blocks, a < b → a + V.ext a ≤ b
  spare : ∀ a ∈ V.spare, a ∈ V.blocks ∧ 24 ≤ V.ext a
  held_block : ∀ i ∈ V.held, ∀ a ∈ V.blocks, i < a ∨ a + 16 ≤ i
  held_spare : ∀ i ∈ V.held, ∀ a ∈ V.spare, i < a ∨ a + 20 ≤ i

def Cell (V : View) (f : Field) (a : ℕ) : Prop := a ∈ V.blocks ∧ (f = .prevfree → a ∈ V.spare)

variable {V : View} {f g : Field} {a b : ℕ}

theorem Ok.fits (hV : V.Ok) (h : V.Cell f a) : f.offset + 4 ≤ V.ext a := by
  by_cases hf : f = .prevfree
  · have h₁ := (hV.spare a (h.2 hf)).2
    have h₂ := f.offset_le
    omega
  · have h₁ := hV.big a h.1
    have h₂ := Field.offset_le_of_ne hf
    omega

/-- Two fields given by a view are the same field or disjoint words. -/
theorem Ok.far (hV : V.Ok) (ha : V.Cell f a) (hb : V.Cell g b) (hne : ¬ (f = g ∧ a = b)) :
    a + f.offset + 4 ≤ b + g.offset ∨ b + g.offset + 4 ≤ a + f.offset := by
  have hf := hV.fits ha
  have hg := hV.fits hb
  rcases Nat.lt_trichotomy a b with h | h | h
  · have := hV.spaced a ha.1 b hb.1 h
    omega
  · subst h
    have := Field.offset_far (f := f) (g := g) (fun he => hne ⟨he, rfl⟩)
    omega
  · have := hV.spaced b hb.1 a ha.1 h
    omega

theorem Ok.held_far (hV : V.Ok) (ha : V.Cell f a) {i : ℕ} (hi : i ∈ V.held) :
    i < a + f.offset ∨ a + f.offset + 4 ≤ i := by
  have hb := hV.held_block i hi a ha.1
  by_cases hf : f = .prevfree
  · have hs := hV.held_spare i hi a (ha.2 hf)
    subst hf
    simp only [Field.offset]
    omega
  · have h₂ := Field.offset_le_of_ne hf
    omega

end View

/-- `s` comes from `s₀` by stores to the view's fields, which now hold `F`; the
list headers hold `H`. -/
structure Sim (V : View) (s₀ s : Heap) (F : Fields) (H : ℕ → ℕ) : Prop where
  get : ∀ f a, V.Cell f a → s.get f a = F f a
  hdr : s.freehdrs = H
  held : ∀ i ∈ V.held, s.mem i = s₀.mem i
  ok : ∀ e ∈ s.trace, e ∈ s₀.trace ∨ e.Ok
  grants : s.grants = s₀.grants
  sbrkbgn : s.sbrkbgn = s₀.sbrkbgn

namespace Sim
variable {V : View} {s₀ s : Heap} {F : Fields} {H : ℕ → ℕ} {f : Field} {a v ext : ℕ}

theorem refl (V : View) (s : Heap) : Sim V s s s.get s.freehdrs :=
  ⟨fun _ _ _ => rfl, rfl, fun _ _ => rfl, fun _ he => .inl he, rfl, rfl⟩

variable (ext) in
theorem setIn (h : Sim V s₀ s F H) (hV : V.Ok) (hc : V.Cell f a) (hv : v < 4294967296)
    (he : f.offset + 4 ≤ ext) : Sim V s₀ (s.setIn ext f a v) (F.set f a v) H := by
  refine ⟨?_, h.hdr, ?_, ?_, h.grants, h.sbrkbgn⟩
  · intro g b hb
    rw [Fields.set_apply]
    split_ifs with heq
    · obtain ⟨rfl, rfl⟩ := heq
      rw [get_setIn_same, Nat.mod_eq_of_lt hv]
    · rw [get_setIn_far (hV.far hb hc heq)]
      exact h.get g b hb
  · intro i hi
    rw [setIn_mem_out (hV.held_far hc hi)]
    exact h.held i hi
  · intro e hmem
    rcases List.mem_cons.mp hmem with rfl | hmem
    · exact .inr he
    · exact h.ok e hmem

theorem set (h : Sim V s₀ s F H) (hV : V.Ok) (hc : V.Cell f a) (hv : v < 4294967296)
    (he : f.offset + 4 ≤ F .sz a) : Sim V s₀ (s.set f a v) (F.set f a v) H := by
  apply h.setIn _ hV hc hv
  rw [h.get .sz a ⟨hc.1, fun h => nomatch h⟩]
  exact he

/-- A guarded store is a guarded update. -/
theorem set_if (h : Sim V s₀ s F H) (hV : V.Ok) (c : Prop) [Decidable c]
    (hc : c → V.Cell f a ∧ v < 4294967296 ∧ f.offset + 4 ≤ F .sz a) :
    Sim V s₀ (if c then s.set f a v else s) (if c then F.set f a v else F) H := by
  split_ifs with hcc
  · obtain ⟨h₁, h₂, h₃⟩ := hc hcc
    exact h.set hV h₁ h₂ h₃
  · exact h

theorem log (h : Sim V s₀ s F H) {e : Event} (he : e.Ok) : Sim V s₀ (s.log e) F H := by
  refine ⟨h.get, h.hdr, h.held, ?_, h.grants, h.sbrkbgn⟩
  intro e' hmem
  rcases List.mem_cons.mp hmem with rfl | hmem
  · exact .inr he
  · exact h.ok e' hmem

theorem setHdr (h : Sim V s₀ s F H) (b v : ℕ) :
    Sim V s₀ (s.setHdr b v) F (fun i => if i = b then v else H i) :=
  ⟨h.get, by rw [Heap.setHdr, h.hdr], h.held, h.ok, h.grants, h.sbrkbgn⟩

theorem congr {F' : Fields} {H' : ℕ → ℕ} (h : Sim V s₀ s F H)
    (hF : ∀ f a, V.Cell f a → F' f a = F f a) (hH : H' = H) : Sim V s₀ s F' H' :=
  ⟨fun f a hc => (h.get f a hc).trans (hF f a hc).symm, h.hdr.trans hH.symm, h.held, h.ok,
    h.grants, h.sbrkbgn⟩

end Sim

end DjgppLibc.NewMalloc
