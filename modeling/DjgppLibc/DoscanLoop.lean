import DjgppLibc.DoprntDigits

/-!
# What the loop of `_innum` reads

A digit of the base goes into the value, modulo 2^64, and into the array. With
the type `i` a zero in front turns the base to 8, and an x behind it to 16.
-/
namespace DjgppLibc.Doscan
open Doprnt (horner horner_cons IsBase)

variable {type c : Char} {len m : ℕ} {s : Scan} {ds rest : List Char}

theorem shifted_ofNat (hb : IsBase s.base) (hm : s.lcval = BitVec.ofNat 64 m) (d : ℕ) :
    s.shifted + BitVec.ofNat 64 d = BitVec.ofNat 64 (m * s.base + d) := by
  apply BitVec.eq_of_toNat_eq
  unfold Scan.shifted
  rw [hm]
  rcases hb with hb | hb | hb
  · rw [if_pos hb, hb]
    simp only [BitVec.toNat_add, BitVec.toNat_shiftLeft, BitVec.toNat_ofNat, Nat.shiftLeft_eq]
    omega
  · rw [if_neg (by omega), if_pos hb, hb]
    simp only [BitVec.toNat_add, BitVec.toNat_shiftLeft, BitVec.toNat_ofNat, Nat.shiftLeft_eq]
    omega
  · rw [if_neg (by omega), if_neg (by omega), hb]
    simp only [BitVec.toNat_add, BitVec.toNat_shiftLeft, BitVec.toNat_ofNat, Nat.shiftLeft_eq]
    omega

theorem ne_x_of_isDigitOf {base : ℕ} (h : isDigitOf base c = true) : c ≠ 'x' ∧ c ≠ 'X' := by
  constructor
  · rintro rfl
    simp [isDigitOf, isdigit] at h
  · rintro rfl
    simp [isDigitOf, isdigit] at h

theorem loop_go {s' : Scan} (hbody : body type s = .ok (true, s')) (hroom : s'.numbuf.length < 64) :
    loop type (len + 1) s =
      loop type len { s' with
        numbuf := s'.numbuf ++ s'.text.head?.toList, text := s'.text.tail
        nchars := s'.nchars + 1 } := by
  rw [loop, hbody]
  dsimp only
  rw [Scan.put, if_pos hroom]
  rfl

def Scan.took (s : Scan) (base : ℕ) (lcval : BitVec 64) (c : Char) (rest : List Char) : Scan :=
  { s with
    base := base, lcval := lcval, ndigit := s.ndigit + 1, cpos := s.cpos + 1
    numbuf := s.numbuf ++ [c], nchars := s.nchars + 1, text := rest }

theorem loop_digit (len : ℕ) (htext : s.text = c :: rest) (hd : isDigitOf s.base c = true)
    (hi : type = 'i' → s.cpos = 0 → c ≠ '0') (hroom : s.numbuf.length < 64) :
    loop type (len + 1) s =
      loop type len (s.took s.base (s.shifted + BitVec.ofNat 64 (digitOf c)) c rest) := by
  obtain ⟨hx, hX⟩ := ne_x_of_isDigitOf hd
  have hbody : body type s = .ok (true, { s with
      cpos := s.cpos + 1, ndigit := s.ndigit + 1
      lcval := s.shifted + BitVec.ofNat 64 (digitOf c) }) := by
    unfold body
    dsimp only
    rw [htext]
    dsimp only
    have hturn : ¬ (c = '0' ∧ s.cpos + 1 = 1 ∧ type = 'i') := by
      rintro ⟨h0, hc, ht⟩
      exact hi ht (by omega) h0
    rw [if_neg hturn, if_neg fun h => h.1.elim hx hX, if_pos hd]
    rfl
  rw [loop_go hbody hroom]
  simp only [htext, List.head?_cons, Option.toList_some, List.tail_cons]
  rfl

/-- With the type `i`, a zero in front makes the number octal. -/
theorem loop_zero (len : ℕ) (htext : s.text = '0' :: rest) (hc : s.cpos = 0) (hm : s.lcval = 0)
    (hroom : s.numbuf.length < 64) :
    loop 'i' (len + 1) s = loop 'i' len (s.took 8 0 '0' rest) := by
  have hbody : body 'i' s = .ok (true, { s with
      cpos := s.cpos + 1, ndigit := s.ndigit + 1, base := 8, lcval := 0 }) := by
    unfold body
    dsimp only
    rw [htext]
    dsimp only
    have hturn : '0' = '0' ∧ s.cpos + 1 = 1 ∧ 'i' = 'i' := ⟨rfl, by omega, rfl⟩
    have hx : ¬ ('0' = 'x' ∨ '0' = 'X') := by decide
    have hd : isDigitOf 8 '0' = true := by decide
    rw [if_pos hturn, if_neg fun h => hx h.1, if_pos hd]
    simp [Scan.shifted, hm, digitOf, isdigit]
  rw [loop_go hbody hroom]
  simp only [htext, List.head?_cons, Option.toList_some, List.tail_cons]
  rfl

theorem loop_x (len : ℕ) (htext : s.text = c :: rest) (hx : c = 'x' ∨ c = 'X')
    (ht : type = 'i' ∨ type = 'x') (hc : s.cpos = 1) (hm : s.lcval = 0)
    (hroom : s.numbuf.length < 64) :
    loop type (len + 1) s = loop type len { s with
      base := 16, cpos := 2, numbuf := s.numbuf ++ [c], nchars := s.nchars + 1, text := rest } := by
  have hne : c ≠ '0' := by
    rintro rfl
    exact absurd hx (by decide)
  have hbody : body type s = .ok (true, { s with cpos := 2, base := 16 }) := by
    unfold body
    dsimp only
    rw [htext]
    dsimp only
    have hturn : ¬ (c = '0' ∧ s.cpos + 1 = 1 ∧ type = 'i') := fun h => hne h.1
    have hgo : (c = 'x' ∨ c = 'X') ∧ (type = 'a' ∨ type = 'i' ∨ type = 'x') ∧ s.cpos + 1 = 2 ∧
        s.lcval = 0 := ⟨hx, .inr ht, by omega, hm⟩
    rw [if_neg hturn, if_pos hgo, hc]
  rw [loop_go hbody hroom]
  simp only [htext, List.head?_cons, Option.toList_some, List.tail_cons]

/-- The whole text is read, and has the value. -/
structure ReadAll (s : Scan) (ds : List Char) (n : ℕ) (s' : Scan) : Prop where
  lcval : s'.lcval = BitVec.ofNat 64 n
  numbuf : s'.numbuf = s.numbuf ++ ds
  nchars : s'.nchars = s.nchars + ds.length
  text : s'.text = []

theorem loop_digits (type : Char) (len : ℕ) (hb : IsBase s.base)
    (hds : ∀ c ∈ ds, isDigitOf s.base c = true)
    (htext : s.text = ds) (hi : type = 'i' → s.cpos = 0 → ds.head? ≠ some '0')
    (hlen : ds.length ≤ len) (hroom : s.numbuf.length + ds.length ≤ 64)
    (hm : s.lcval = BitVec.ofNat 64 m) :
    ∃ s', loop type len s = .ok s' ∧ ReadAll s ds (horner s.base m ds) s' := by
  induction ds generalizing s len m with
  | nil =>
      cases len with
      | zero => exact ⟨s, rfl, hm, by simp, by simp, htext⟩
      | succ len =>
          refine ⟨{ s with cpos := s.cpos + 1 }, ?_, hm, by simp, by simp, htext⟩
          rw [loop, body]
          dsimp only
          rw [htext]
  | cons c ds ih =>
      obtain ⟨len, rfl⟩ := Nat.exists_eq_add_one.mpr (Nat.zero_lt_of_lt hlen)
      rw [List.length_cons] at hlen hroom
      have hstep := loop_digit len htext (hds c (by simp))
        (fun ht hc h0 => hi ht hc (by rw [h0]; rfl)) (by omega)
      obtain ⟨s', hs', hread⟩ := ih len
        (s := s.took s.base (s.shifted + BitVec.ofNat 64 (digitOf c)) c ds)
        (m := m * s.base + digitOf c) hb
        (fun x hx => hds x (List.mem_cons_of_mem c hx)) rfl (fun _ hc => nomatch hc) (by omega)
        (by simp only [Scan.took, List.length_append, List.length_singleton]; omega)
        (shifted_ofNat hb hm _)
      refine ⟨s', hstep.trans hs', hread.lcval, ?_, ?_, hread.text⟩
      · rw [hread.numbuf]
        simp [Scan.took]
      · rw [hread.nchars, List.length_cons]
        simp only [Scan.took]
        push_cast
        omega

def Reads (type : Char) (ds : List Char) (n : ℕ) : Prop :=
  ∀ (len : ℕ) (s : Scan), s.base = startBase type → s.cpos = 0 → s.lcval = 0 → s.text = ds →
    ds.length ≤ len → s.numbuf.length + ds.length ≤ 64 →
    ∃ s', loop type len s = .ok s' ∧ ReadAll s ds n s'

theorem isBase_startBase (type : Char) : IsBase (startBase type) := by
  unfold startBase
  split_ifs
  · exact .inl rfl
  · exact .inr (.inr rfl)
  · exact .inr (.inl rfl)

theorem reads_digits (type : Char) (hds : ∀ c ∈ ds, isDigitOf (startBase type) c = true)
    (hi : type = 'i' → ds.head? ≠ some '0') : Reads type ds (horner (startBase type) 0 ds) := by
  intro len s hbase hc hm htext hlen hroom
  rw [← hbase] at hds ⊢
  exact loop_digits type len (hbase ▸ isBase_startBase type) hds htext
    (fun ht _ => hi ht) hlen hroom hm

/-- A first character that has been read on its own. -/
theorem ReadAll.cons {s₁ s' : Scan} {n : ℕ} (h : ReadAll s₁ ds n s')
    (hbuf : s₁.numbuf = s.numbuf ++ [c]) (hchars : s₁.nchars = s.nchars + 1) :
    ReadAll s (c :: ds) n s' where
  lcval := h.lcval
  numbuf := by rw [h.numbuf, hbuf, List.append_assoc, List.singleton_append]
  nchars := by
    rw [h.nchars, hchars, List.length_cons]
    push_cast
    omega
  text := h.text

theorem reads_octal (hds : ∀ c ∈ ds, isDigitOf 8 c = true) :
    Reads 'i' ('0' :: ds) (horner 8 0 ds) := by
  intro len s _ hc hm htext hlen hroom
  obtain ⟨len, rfl⟩ := Nat.exists_eq_add_one.mpr (Nat.zero_lt_of_lt hlen)
  rw [List.length_cons] at hlen hroom
  have hstep := loop_zero len htext hc hm (by omega)
  obtain ⟨s', hs', hread⟩ := loop_digits 'i' len (s := s.took 8 0 '0' ds) (m := 0)
    (.inl rfl) hds rfl (fun _ hc => nomatch hc) (by omega)
    (by simp only [Scan.took, List.length_append, List.length_singleton]; omega) rfl
  exact ⟨s', hstep.trans hs', hread.cons rfl rfl⟩

theorem reads_hex (ht : type = 'i' ∨ type = 'x') (hx : c = 'x' ∨ c = 'X')
    (hds : ∀ c ∈ ds, isDigitOf 16 c = true) :
    Reads type ('0' :: c :: ds) (horner 16 0 ds) := by
  intro len s hbase hc hm htext hlen hroom
  obtain ⟨len, rfl⟩ : ∃ k, len = k + 2 := ⟨len - 2, by simp only [List.length_cons] at hlen; omega⟩
  simp only [List.length_cons] at hlen hroom
  -- the zero is a digit in any base
  obtain ⟨b, hstep⟩ : ∃ b, loop type (len + 1 + 1) s =
      loop type (len + 1) (s.took b 0 '0' (c :: ds)) := by
    rcases ht with rfl | rfl
    · exact ⟨8, loop_zero _ htext hc hm (by omega)⟩
    · have hd : isDigitOf s.base '0' = true := by
        rw [hbase]
        decide
      have hval : s.shifted + BitVec.ofNat 64 (digitOf '0') = 0 := by
        exact shifted_ofNat (hbase ▸ isBase_startBase 'x') (m := 0) hm (digitOf '0') |>.trans
          (by rw [Nat.zero_mul]; rfl)
      refine ⟨s.base, ?_⟩
      rw [loop_digit _ htext hd (fun h => absurd h (by decide)) (by omega), hval]
  have hlen₁ : (s.took b 0 '0' (c :: ds)).numbuf.length = s.numbuf.length + 1 := by
    simp [Scan.took]
  have hstep₁ := loop_x len (s := s.took b 0 '0' (c :: ds)) rfl hx ht
    (by simp [Scan.took, hc]) rfl (by omega)
  obtain ⟨s₂, hs₂⟩ : ∃ q : Scan, q = { s.took b 0 '0' (c :: ds) with
      base := 16, cpos := 2, numbuf := (s.took b 0 '0' (c :: ds)).numbuf ++ [c]
      nchars := (s.took b 0 '0' (c :: ds)).nchars + 1, text := ds } := ⟨_, rfl⟩
  rw [← hs₂] at hstep₁
  have hb₂ : s₂.base = 16 := by rw [hs₂]
  obtain ⟨s', hs', hread⟩ := loop_digits type len (s := s₂) (m := 0)
    (.inr (.inr hb₂)) (by rw [hb₂]; exact hds) (by rw [hs₂])
    (fun _ hc => by rw [hs₂] at hc; exact nomatch hc) (by omega)
    (by rw [hs₂]; simp only [List.length_append, List.length_singleton]; omega)
    (by rw [hs₂]; rfl)
  rw [hb₂] at hread
  have hread₁ : ReadAll (s.took b 0 '0' (c :: ds)) (c :: ds) (horner 16 0 ds) s' :=
    hread.cons (by rw [hs₂]) (by rw [hs₂])
  exact ⟨s', hstep.trans (hstep₁.trans hs'), hread₁.cons rfl rfl⟩

theorem dropWhile_blanks (k : ℕ) (hc : isspace c = false) (rest : List Char) :
    (List.replicate k ' ' ++ c :: rest).dropWhile isspace = c :: rest ∧
      (List.replicate k ' ' ++ c :: rest).takeWhile isspace = List.replicate k ' ' := by
  have hblank : ∀ x ∈ List.replicate k ' ', isspace x = true := by
    intro x hx
    rw [List.eq_of_mem_replicate hx]
    decide
  rw [List.dropWhile_append_of_pos hblank, List.takeWhile_append_of_pos hblank,
    List.dropWhile_cons_of_neg (by simp [hc]), List.takeWhile_cons_of_neg (by simp [hc])]
  exact ⟨rfl, List.append_nil _⟩

theorem stored_int (size : Size) (v : BitVec 64) (b b' : List Char) :
    stored false size v b = stored false size v b' := by
  cases size <;> rfl

theorem finish_reads {n : ℕ} {size : Size} {negflg : Bool} {s₀ s' : Scan}
    (hread : ReadAll s₀ ds n s')
    (hfloat : isFloat type = false) (hbuf : s₀.numbuf = if negflg then ['-'] else [])
    (hds : ds ≠ []) (hlen : s₀.numbuf.length + ds.length ≤ 63) :
    finish type size negflg s' =
      .ok ⟨true, stored false size (if negflg then -BitVec.ofNat 64 n else BitVec.ofNat 64 n) [],
        [],
        true, s₀.nchars + ds.length - 1⟩ := by
  have hpos := List.length_pos_iff.mpr hds
  have hnum : s'.numbuf.length = s₀.numbuf.length + ds.length := by
    rw [hread.numbuf, List.length_append]
  have hsome : ¬ (s'.numbuf = [] ∨ negflg = true ∧ s'.numbuf.length = 1) := by
    rintro (h | ⟨hneg, h⟩)
    · rw [h, List.length_nil] at hnum
      omega
    · rw [hbuf, if_pos hneg, List.length_singleton] at hnum
      omega
  unfold finish
  dsimp only
  rw [if_neg hsome, if_neg (by omega), hread.lcval, hread.text, hread.nchars, hfloat,
    stored_int _ _ _ []]
  rfl

theorem isDigitOf_ne {base : ℕ} (h : isDigitOf base c = true) :
    isspace c = false ∧ c ≠ '-' ∧ c ≠ '+' := by
  -- all digits lie behind the signs and blanks
  have h48 : 48 ≤ c.toNat := by
    simp only [isDigitOf, isdigit, Bool.or_eq_true, Bool.and_eq_true, decide_eq_true_eq] at h
    rcases h with ⟨⟨h, -⟩, -⟩ | ⟨-, ⟨h, -⟩ | ⟨h, -⟩⟩
    · exact h
    · exact Nat.le_trans (by decide) (show 97 ≤ c.toNat from h)
    · exact Nat.le_trans (by decide) (show 65 ≤ c.toNat from h)
  have hne : ∀ d : Char, d.toNat < 48 → c ≠ d := by
    rintro d hd rfl
    omega
  refine ⟨?_, hne '-' (by decide), hne '+' (by decide)⟩
  rw [isspace, Bool.or_eq_false_iff]
  constructor
  · exact decide_eq_false (hne ' ' (by decide))
  · rw [Bool.and_eq_false_iff]
    right
    apply decide_eq_false
    omega

theorem innum_go {n k len len' : ℕ} {size : Size} {negflg : Bool} {s₀ : Scan} (hr : Reads type ds n)
    (hfloat : isFloat type = false) (hc : isspace c = false)
    (hsign : takeSign len ⟨startBase type, 0, 0, false, 0, [], k + 1, c :: rest⟩ =
      (negflg, len', s₀))
    (hbase : s₀.base = startBase type) (hcpos : s₀.cpos = 0) (hlcval : s₀.lcval = 0)
    (htext : s₀.text = ds) (hbuf : s₀.numbuf = if negflg then ['-'] else []) (hds : ds ≠ [])
    (hlen : ds.length ≤ len') (hroom : s₀.numbuf.length + ds.length ≤ 63) {nchars : ℕ}
    (hchars : s₀.nchars + ds.length - 1 = nchars) :
    innum type len size (List.replicate k ' ' ++ c :: rest) =
      .ok ⟨true, stored false size (if negflg then -BitVec.ofNat 64 n else BitVec.ofNat 64 n) [],
        [],
        true, nchars⟩ := by
  obtain ⟨hdrop, htake⟩ := dropWhile_blanks k hc rest
  obtain ⟨s', hs', hread⟩ := hr len' s₀ hbase hcpos hlcval htext hlen (by omega)
  unfold innum
  have hne : ¬ c :: rest = [] := by simp
  rw [hdrop, htake, List.length_replicate]
  dsimp only
  rw [if_neg hne, hsign]
  dsimp only
  rw [hs', ← hchars]
  exact finish_reads hread hfloat hbuf hds hroom

theorem innum_text {n k base : ℕ} {size : Size} {sign : Option Char} (hr : Reads type ds n)
    (hfloat : isFloat type = false) (hds : ∃ c r, ds = c :: r ∧ isDigitOf base c = true)
    (hsign : sign = none ∨ sign = some ' ' ∨ sign = some '+' ∨ sign = some '-')
    (hlen : sign.toList.length + ds.length ≤ 63) :
    innum type defaultWidth size (List.replicate k ' ' ++ sign.toList ++ ds) =
      .ok ⟨true, stored false size
        (if sign = some '-' then -BitVec.ofNat 64 n else BitVec.ofNat 64 n) [], [], true,
        (List.replicate k ' ' ++ sign.toList ++ ds).length⟩ := by
  obtain ⟨c, r, rfl, hd⟩ := hds
  obtain ⟨hsp, hminus, hplus⟩ := isDigitOf_ne hd
  have hplain : ∀ k, takeSign defaultWidth ⟨startBase type, 0, 0, false, 0, [], k, c :: r⟩ =
      (false, defaultWidth, ⟨startBase type, 0, 0, false, 0, [], k, c :: r⟩) := by
    intro k
    unfold takeSign
    rw [if_neg (by simpa using hminus), if_neg (by simpa using hplus)]
  have hwidth : (c :: r).length ≤ defaultWidth - 1 := by
    unfold defaultWidth
    omega
  rcases hsign with rfl | rfl | rfl | rfl
  · rw [Option.toList_none, List.append_nil]
    apply innum_go hr hfloat hsp (hplain _) rfl rfl rfl rfl rfl (by simp) (by omega)
    · simpa using hlen
    · simp
      omega
  · -- the blank is skipped with the others
    have hblanks : List.replicate k ' ' ++ (some ' ').toList ++ c :: r =
        List.replicate (k + 1) ' ' ++ c :: r := by
      rw [List.replicate_succ']
      rfl
    rw [hblanks]
    apply innum_go hr hfloat hsp (hplain _) rfl rfl rfl rfl rfl (by simp) (by omega)
    · simp at hlen ⊢
      omega
    · simp
      omega
  · rw [Option.toList_some, List.append_assoc, List.singleton_append]
    have htake : ∀ n, takeSign defaultWidth
        ⟨startBase type, 0, 0, false, 0, [], n, '+' :: c :: r⟩ = (false, defaultWidth - 1,
        ⟨startBase type, 0, 0, false, 0, [], n + 1, c :: r⟩) := fun _ => rfl
    apply innum_go hr hfloat (by decide) (htake _) rfl rfl rfl rfl rfl (by simp) hwidth
    · simp at hlen ⊢
      omega
    · simp
      omega
  · rw [Option.toList_some, List.append_assoc, List.singleton_append]
    have htake : ∀ n, takeSign defaultWidth
        ⟨startBase type, 0, 0, false, 0, [], n, '-' :: c :: r⟩ = (true, defaultWidth - 1,
        ⟨startBase type, 0, 0, false, 0, ['-'], n + 1, c :: r⟩) := fun _ => rfl
    apply innum_go hr hfloat (by decide) (htake _) rfl rfl rfl rfl rfl (by simp) hwidth
    · simp at hlen ⊢
      omega
    · simp
      omega

end DjgppLibc.Doscan
