import DjgppLibc.Emu387Products

/-!
# The words of a product in the 387 emulator

The loops of `r_mul` in the widths of the source: the words and the carries beside them have 16
bits, and every sum has 32. The arrays are set only up to the eighth word, and what is behind
that is left as it was on the stack.
-/
namespace DjgppLibc.Emu387

open MultiWords

/-- The arrays `sl` and `carry` of `r_mul`. -/
structure Limbs where
  sl : ℕ → BitVec 16
  carry : ℕ → BitVec 16

/-- The first loop of `r_mul`. -/
def Limbs.clear (s : Limbs) : Limbs :=
  (List.range 8).foldl
    (fun s ai => ⟨Function.update s.sl ai 0, Function.update s.carry ai 0⟩) s

/-- The body of the loop over `ai` and `bi`. -/
def Limbs.add (as bs : ℕ → BitVec 16) (s : Limbs) (ai bi : ℕ) : Limbs :=
  let l : BitVec 32 := (as ai).setWidth 32 * (bs bi).setWidth 32
  let sum : BitVec 32 := (s.sl (ai + bi)).setWidth 32 + (l &&& 0xffff)
  let sl := Function.update s.sl (ai + bi) ((sum &&& 0xffff).setWidth 16)
  let sum : BitVec 32 := (sl (ai + bi + 1)).setWidth 32 + (l >>> 16) + (sum >>> 16)
  let sl := Function.update sl (ai + bi + 1) ((sum &&& 0xffff).setWidth 16)
  let carry := Function.update s.carry (ai + bi + 2)
    (((s.carry (ai + bi + 2)).setWidth 32 + (sum >>> 16)).setWidth 16)
  ⟨sl, carry⟩

/-- The loop over `bi`. -/
def Limbs.addRow (as bs : ℕ → BitVec 16) (s : Limbs) (ai : ℕ) : Limbs :=
  (List.range 4).foldl (fun s bi => s.add as bs ai bi) s

def Limbs.fold (s : Limbs) (ai : ℕ) : Limbs :=
  if s.carry ai ≠ 0 then
    let sum : BitVec 32 := (s.sl ai).setWidth 32 + (s.carry ai).setWidth 32
    ⟨Function.update s.sl ai ((sum &&& 0xffff).setWidth 16), Function.update s.carry (ai + 1)
      (((s.carry (ai + 1)).setWidth 32 + (sum >>> 16)).setWidth 16)⟩
  else s

/-- The loops of `r_mul`, from whatever is in the arrays. -/
def mulLimbs (as bs : ℕ → BitVec 16) (s : Limbs) : Limbs :=
  let s := (List.range 4).foldl (Limbs.addRow as bs) s.clear
  (List.range 8).foldl Limbs.fold s

def limbsValue (f : ℕ → BitVec 16) (n : ℕ) : ℕ := weigh (2 ^ 16) (fun k => (f k).toNat) n

variable {as bs : ℕ → BitVec 16} {s : Limbs} {p : Partial} {n : ℕ}

/-- The arrays hold the numbers of a product so far, and no carry is more than `n`. -/
structure Limbs.Tracks (n : ℕ) (s : Limbs) (p : Partial) : Prop where
  sl : ∀ k < 8, (s.sl k).toNat = p.sl k
  carry : ∀ k < 8, (s.carry k).toNat = p.carry k
  count : ∀ k < 8, p.carry k ≤ n

/-- An array and a function still agree after one place of each is set. -/
theorem update_tracks {f : ℕ → BitVec 16} {g : ℕ → ℕ} {k v : ℕ} {w : BitVec 16}
    (h : ∀ i < 8, (f i).toNat = g i) (hw : k < 8 → w.toNat = v) :
    ∀ i < 8, (Function.update f k w i).toNat = Function.update g k v i := by
  intro i hi
  by_cases hik : i = k
  · rw [hik, Function.update_self, Function.update_self, hw (hik ▸ hi)]
  · rw [Function.update_of_ne hik, Function.update_of_ne hik, h i hi]

theorem update_count {g : ℕ → ℕ} {k v m : ℕ} (h : ∀ i < 8, g i ≤ n) (hle : n ≤ m)
    (hv : k < 8 → v ≤ m) : ∀ i < 8, Function.update g k v i ≤ m := by
  intro i hi
  by_cases hik : i = k
  · rw [hik, Function.update_self]
    exact hv (hik ▸ hi)
  · rw [Function.update_of_ne hik]
    exact (h i hi).trans hle

theorem toNat_low (x : BitVec 32) : (x &&& 0xffff).toNat = x.toNat % 2 ^ 16 :=
  toNat_and_mask x _ (n := 16) rfl

theorem toNat_word (x : BitVec 32) : ((x &&& 0xffff).setWidth 16).toNat = x.toNat % 2 ^ 16 := by
  rw [BitVec.toNat_setWidth, toNat_low, Nat.mod_mod]

theorem toNat_high (x : BitVec 32) : (x >>> 16).toNat = x.toNat / 2 ^ 16 := by
  rw [BitVec.toNat_ushiftRight, Nat.shiftRight_eq_div_pow]

theorem toNat_widen (x : BitVec 16) : (x.setWidth 32).toNat = x.toNat := by
  rw [BitVec.toNat_setWidth, Nat.mod_eq_of_lt (x.isLt.trans (by decide))]

theorem toNat_product (x y : BitVec 16) :
    (x.setWidth 32 * y.setWidth 32).toNat = x.toNat * y.toNat ∧
      x.toNat * y.toNat ≤ (2 ^ 16 - 1) * (2 ^ 16 - 1) := by
  have hle : x.toNat * y.toNat ≤ (2 ^ 16 - 1) * (2 ^ 16 - 1) :=
    Nat.mul_le_mul (Nat.le_sub_one_of_lt x.isLt) (Nat.le_sub_one_of_lt y.isLt)
  rw [BitVec.toNat_mul, toNat_widen, toNat_widen]
  exact ⟨Nat.mod_eq_of_lt (hle.trans_lt (by norm_num)), hle⟩

theorem Limbs.Tracks.add (h : s.Tracks n p) (hn : n < 2 ^ 15) {ai bi : ℕ} (hai : ai < 4)
    (hbi : bi < 4) : (s.add as bs ai bi).Tracks (n + 1)
      (p.add (2 ^ 16) (ai + bi) ((as ai).toNat * (bs bi).toNat)) := by
  obtain ⟨hl, hle⟩ := toNat_product (as ai) (bs bi)
  have hne : ai + bi + 1 ≠ ai + bi := by omega
  have hsl := h.sl (ai + bi) (by omega)
  have hsl' := h.sl (ai + bi + 1) (by omega)
  obtain ⟨l, hlw⟩ : ∃ l, l = (as ai).setWidth 32 * (bs bi).setWidth 32 := ⟨_, rfl⟩
  obtain ⟨sum, hsum⟩ : ∃ sum, sum = (s.sl (ai + bi)).setWidth 32 + (l &&& 0xffff) := ⟨_, rfl⟩
  obtain ⟨next, hnext⟩ : ∃ next, next =
    (s.sl (ai + bi + 1)).setWidth 32 + (l >>> 16) + (sum >>> 16) := ⟨_, rfl⟩
  rw [← hlw] at hl
  rw [← hl] at hle ⊢
  have hsumNat : sum.toNat = p.sl (ai + bi) + l.toNat % 2 ^ 16 := by
    rw [hsum, BitVec.toNat_add, toNat_widen, toNat_low, hsl]
    omega
  have hnextNat : next.toNat =
      p.sl (ai + bi + 1) + l.toNat / 2 ^ 16 + sum.toNat / 2 ^ 16 := by
    rw [hnext, BitVec.toNat_add, BitVec.toNat_add, toNat_widen, toNat_high, toNat_high, hsl']
    omega
  have hone : next.toNat / 2 ^ 16 ≤ 1 := by omega
  have hadd : s.add as bs ai bi =
      ⟨Function.update (Function.update s.sl (ai + bi) ((sum &&& 0xffff).setWidth 16))
        (ai + bi + 1) ((next &&& 0xffff).setWidth 16), Function.update s.carry (ai + bi + 2)
        (((s.carry (ai + bi + 2)).setWidth 32 + (next >>> 16)).setWidth 16)⟩ := by
    rw [hnext, hsum, hlw, Limbs.add, Function.update_of_ne hne]
  rw [hadd, Partial.add, ← hsumNat, ← hnextNat]
  refine ⟨update_tracks (update_tracks h.sl fun _ => toNat_word sum) fun _ => toNat_word next,
    update_tracks h.carry fun hk => ?_, update_count h.count (Nat.le_succ n) fun hk => ?_⟩
  · have hcarry := h.carry _ hk
    have hcount := h.count _ hk
    rw [BitVec.toNat_setWidth, BitVec.toNat_add, toNat_widen, toNat_high, hcarry]
    omega
  · exact Nat.add_le_add (h.count _ hk) hone

theorem Limbs.Tracks.fold (h : s.Tracks n p) (hn : n < 2 ^ 15) {ai : ℕ} (hai : ai < 8) :
    (s.fold ai).Tracks (n + 1) (p.settle (2 ^ 16) ai) := by
  have hsl := h.sl ai hai
  have hcarry := h.carry ai hai
  have hcount := h.count ai hai
  have hzero : s.carry ai ≠ 0 ↔ p.carry ai ≠ 0 := by
    rw [← hcarry, Ne, Ne, ← BitVec.toNat_inj]
    rfl
  unfold Limbs.fold Partial.settle
  simp only [hzero]
  split_ifs with hne
  · obtain ⟨sum, hsum⟩ : ∃ sum, sum = (s.sl ai).setWidth 32 + (s.carry ai).setWidth 32 := ⟨_, rfl⟩
    have hsumNat : sum.toNat = p.sl ai + p.carry ai := by
      rw [hsum, BitVec.toNat_add, toNat_widen, toNat_widen, hsl, hcarry]
      omega
    rw [← hsum, ← hsumNat]
    refine ⟨update_tracks h.sl fun _ => toNat_word sum, update_tracks h.carry fun hk => ?_,
      update_count h.count (Nat.le_succ n) fun hk => ?_⟩
    · have hcarry' := h.carry _ hk
      have hcount' := h.count _ hk
      rw [BitVec.toNat_setWidth, BitVec.toNat_add, toNat_widen, toNat_high, hcarry']
      omega
    · have hcount' := h.count _ hk
      omega
  · exact ⟨h.sl, h.carry, fun k hk => (h.count k hk).trans (Nat.le_succ n)⟩

theorem clear_tracks (s : Limbs) : s.clear.Tracks 0 ⟨fun _ => 0, fun _ => 0⟩ := by
  have hclear : ∀ m, (∀ k < m, ((List.range m).foldl (fun (s : Limbs) ai =>
        (⟨Function.update s.sl ai 0, Function.update s.carry ai 0⟩ : Limbs)) s).sl k = 0) ∧
      ∀ k < m, ((List.range m).foldl (fun (s : Limbs) ai =>
        (⟨Function.update s.sl ai 0, Function.update s.carry ai 0⟩ : Limbs)) s).carry k = 0 := by
    intro m
    induction m with
    | zero => exact ⟨fun k hk => absurd hk (by omega), fun k hk => absurd hk (by omega)⟩
    | succ m ih =>
        simp only [List.range_succ, List.foldl_append, List.foldl_cons, List.foldl_nil]
        constructor
        · intro k hk
          rw [Function.update_apply]
          split_ifs with hkm
          · rfl
          · exact ih.1 k (by omega)
        · intro k hk
          rw [Function.update_apply]
          split_ifs with hkm
          · rfl
          · exact ih.2 k (by omega)
  obtain ⟨hsl, hcarry⟩ := hclear 8
  refine ⟨fun k hk => ?_, fun k hk => ?_, fun k _ => le_rfl⟩
  · exact congrArg BitVec.toNat (hsl k hk)
  · exact congrArg BitVec.toNat (hcarry k hk)

theorem foldl_tracks {f : Limbs → ℕ → Limbs} {g : Partial → ℕ → Partial} (c m : ℕ)
    (hstep : ∀ s p n k, Limbs.Tracks n s p → n + c ≤ 2 ^ 10 → k < m → (f s k).Tracks (n + c) (g p k))
    (h : s.Tracks n p) (hn : n + c * m ≤ 2 ^ 10) :
    ((List.range m).foldl f s).Tracks (n + c * m) ((List.range m).foldl g p) := by
  have hrun : ∀ j ≤ m, ((List.range j).foldl f s).Tracks (n + c * j)
      ((List.range j).foldl g p) := by
    intro j hj
    induction j with
    | zero => exact h
    | succ j ih =>
        have hle : c * j + c ≤ c * m := Nat.mul_le_mul_left c hj
        rw [List.range_succ, List.foldl_append, List.foldl_append, Nat.mul_succ, ← Nat.add_assoc]
        exact hstep _ _ _ _ (ih (by omega)) (by omega) (by omega)
  exact hrun m le_rfl

theorem Limbs.Tracks.addRow (h : s.Tracks n p) (hn : n + 4 ≤ 2 ^ 10) {ai : ℕ} (hai : ai < 4) :
    (s.addRow as bs ai).Tracks (n + 4)
      (p.addRow (2 ^ 16) (fun k => (bs k).toNat) 4 ai (as ai).toNat) := by
  rw [Limbs.addRow, Partial.addRow]
  exact foldl_tracks 1 4 (fun s p n bi h hn hbi => h.add (by omega) hai hbi) h (by omega)

theorem mulLimbs_tracks (as bs : ℕ → BitVec 16) (s : Limbs) : (mulLimbs as bs s).Tracks 24
    ((products (2 ^ 16) (fun k => (as k).toNat) (fun k => (bs k).toNat) 4 4).settleAll
      (2 ^ 16) 8) := by
  rw [mulLimbs, Partial.settleAll, products]
  refine foldl_tracks 1 8 (fun s p n ai h hn hai => h.fold (by omega) hai) ?_ (by norm_num)
  exact foldl_tracks 4 4 (fun s p n ai h hn hai => h.addRow (by omega) hai) (clear_tracks s)
    (by norm_num)

/-- The first eight words are the product of the numbers. -/
theorem mulLimbs_exact (as bs : ℕ → BitVec 16) (s : Limbs) :
    limbsValue (mulLimbs as bs s).sl 8 = limbsValue as 4 * limbsValue bs 4 := by
  rw [limbsValue, weigh_congr (mulLimbs_tracks as bs s).sl]
  exact products_settled (fun k _ => (as k).isLt) (fun k _ => (bs k).isLt)

/-- The words of a significand. -/
def limb (sig : BitVec 64) (k : ℕ) : BitVec 16 := (sig >>> (16 * k)).setWidth 16

theorem toNat_limb (sig : BitVec 64) (k : ℕ) : (limb sig k).toNat = part sig k := by
  rw [limb, BitVec.toNat_setWidth, BitVec.toNat_ushiftRight, Nat.shiftRight_eq_div_pow]
  rfl

/-- The upper four words of the arrays are the significand that `r_mul` takes from them. -/
theorem mulLimbs_upper (a b : Reg) (s : Limbs) : BitVec.ofNat 64 (limbsValue
    (fun k => (mulLimbs (limb a.sig) (limb b.sig) s).sl (4 + k)) 4) = productSig a b := by
  have htracks := mulLimbs_tracks (limb a.sig) (limb b.sig) s
  simp only [toNat_limb] at htracks
  have hupper : ∀ k < 8, ((mulLimbs (limb a.sig) (limb b.sig) s).sl k).toNat =
      productWords a b k := by
    intro k hk
    rw [htracks.sl k hk, productWords]
  rw [← productWords_upper a b, limbsValue, weigh_congr fun k hk => hupper (4 + k) (by omega)]

end DjgppLibc.Emu387
