import DjgppLibc.DoscanLoop

/-!
# Scanning what was printed

The text of an integer is made of blanks, a sign, a prefix, zeros and digits. The
scanner skips the blanks, takes the sign, finds the base from its type or from
the prefix, and reads the digits to the end.
-/
namespace DjgppLibc.Doprnt
open Doscan

variable {f g : Flags} {ch type : Char} {base n k z : ℕ} {hex : Bool} {v : BitVec 64}
  {fmt rest ds : List Char}

def IsFlagSign (sign : Option Char) : Prop := sign = none ∨ sign = some ' ' ∨ sign = some '+'

theorem rflag_sign (h : rflag n fmt f = some (g, ch, rest)) (hf : IsFlagSign f.sign) :
    IsFlagSign g.sign := by
  induction n generalizing fmt f with
  | zero => exact absurd h (by simp [rflag])
  | succ n ih =>
      cases fmt with
      | nil => exact absurd h (by simp [rflag])
      | cons c fmt =>
          have hblank : IsFlagSign (if f.sign = none then some ' ' else f.sign) := by
            split_ifs
            · exact .inr (.inl rfl)
            · exact hf
          have hchoice : ∀ (b : Bool) (f₁ f₂ : Flags), f₁.sign = f.sign → f₂.sign = f.sign →
              IsFlagSign (if b then f₁ else f₂).sign := by
            intro b f₁ f₂ h₁ h₂
            cases b with
            | true => exact h₁.symm ▸ hf
            | false => exact h₂.symm ▸ hf
          unfold rflag at h
          split at h
          all_goals first
            | exact ih h hf
            | exact ih h hblank
            | exact ih h (.inr (.inr rfl))
            | exact ih h (hchoice _ _ _ rfl rfl)
            | cases h
            | split_ifs at h
          · exact ih h hf
          · dsimp only at h
            split_ifs at h
            exact ih h hf
          · obtain ⟨rfl, -, -⟩ := Option.some.inj h
            exact hf

def printed (f : Flags) (v : BitVec 64) : ℕ := if f.longdbl then v.toNat else (v.setWidth 32).toNat

theorem printed_lt (f : Flags) (v : BitVec 64) : printed f v < 18446744073709551616 := by
  unfold printed
  split_ifs
  · exact v.isLt
  · have := (v.setWidth 32).isLt
    omega

/-- The digits of the value, with the leading zero of the alternate form in octal. -/
structure Figures (f : Flags) (base n : ℕ) (t : List Char) : Prop where
  digits : ∀ c ∈ t, isDigitOf base c = true
  value : horner base 0 t = n
  length : t.length ≤ 23
  nonempty : t ≠ []
  zero : n = 0 → t = ['0']
  head : n ≠ 0 → base ≠ 8 → t.head? ≠ some '0'
  octal : f.alt = true → base = 8 → t.head? = some '0'

theorem figures_spec (hb : IsBase base) (hp : f.prec = none) (upper : Bool) (v : BitVec 64) :
    Figures f base (printed f v) (figures f upper base v) := by
  have hlt := printed_lt f v
  have hfuel : printed f v < base ^ 64 := by
    have h2 : (2 : ℕ) ^ 64 ≤ base ^ 64 := Nat.pow_le_pow_left hb.two_le 64
    omega
  have hk : printed f v < base ^ 22 := by
    have h8 : (8 : ℕ) ^ 22 ≤ base ^ 22 := by
      apply Nat.pow_le_pow_left
      unfold IsBase at hb
      omega
    omega
  have hlen := convert_length upper 64 hb (by decide) hk []
  have hval := convert_value upper hb hfuel []
  have hdig := convert_digits upper 64 (printed f v) (t := []) hb (by simp)
  have hzero : printed f v = 0 → convert base upper 64 (printed f v) [] = ['0'] := by
    intro h0
    rw [h0]
    exact convert_zero base upper 63
  have hhead : printed f v ≠ 0 → ∃ c r, convert base upper 64 (printed f v) [] = c :: r ∧ c ≠ '0' :=
    fun h0 => convert_head upper hb hfuel h0 []
  unfold figures
  rw [if_pos (.inr (by rw [hp]; simp))]
  dsimp only
  change Figures f base (printed f v)
    (if f.alt ∧ base = 8 ∧ (convert base upper 64 (printed f v) []).head? ≠ some '0' then
      '0' :: convert base upper 64 (printed f v) [] else convert base upper 64 (printed f v) [])
  generalize printed f v = n at *
  generalize convert base upper 64 n [] = t at *
  split_ifs with halt
  · obtain ⟨-, rfl, hne⟩ := halt
    refine ⟨?_, ?_, ?_, by simp, ?_, fun _ h8 => absurd rfl h8, fun _ _ => rfl⟩
    · intro c hc
      rcases List.mem_cons.mp hc with rfl | hc
      · decide
      · exact hdig c hc
    · rw [horner_cons]
      exact hval
    · rw [List.length_cons]
      rw [List.length_nil, Nat.zero_add] at hlen
      omega
    · intro h0
      rw [hzero h0] at hne
      exact absurd rfl hne
  · refine ⟨hdig, hval, ?_, ?_, hzero, ?_, ?_⟩
    · rw [List.length_nil, Nat.zero_add] at hlen
      omega
    · by_cases h0 : n = 0
      · rw [hzero h0]
        simp
      · obtain ⟨c, r, rfl, -⟩ := hhead h0
        simp
    · intro h0 _
      obtain ⟨c, r, rfl, hc⟩ := hhead h0
      simpa using hc
    · intro ha h8
      by_contra hne
      exact halt ⟨ha, h8, hne⟩

def padding (f : Flags) (ch : Char) (base : ℕ) (hex : Bool) (v : BitVec 64) : ℕ :=
  (if f.zeropad then f.width else 0) -
    ((figures f (ch = 'X') base v).length + f.sign.toList.length + if hex then 2 else 0)

/-- The text without trailing blanks and without precision. -/
theorem numberText_eq (hl : f.ladjust = false) (hp : f.prec = none) (ch : Char) (base : ℕ)
    (hex : Bool)
    (v : BitVec 64) :
    ∃ k, numberText f ch base hex v = List.replicate k ' ' ++ f.sign.toList ++
      ((if hex then ['0', ch] else []) ++ List.replicate (padding f ch base hex v) '0' ++
        figures f (ch = 'X') base v) ∧ (f.width = 0 → k = 0) := by
  unfold numberText padding
  simp only [hp, ne_eq, not_true_eq_false, if_false, hl, Bool.not_false, Bool.true_and,
    Option.getD_none, Nat.zero_max, Nat.zero_sub, List.replicate_zero, List.append_nil,
    Bool.false_eq_true]
  generalize figures f (decide (ch = 'X')) base v = t
  cases hz : f.zeropad with
  | false =>
      refine ⟨f.width - (t.length + f.sign.toList.length + if hex then 2 else 0), by simp, ?_⟩
      intro h0
      rw [h0, Nat.zero_sub]
  | true => exact ⟨0, by simp, fun _ => rfl⟩

theorem horner_zeros_append (base z : ℕ) (t : List Char) :
    horner base 0 (List.replicate z '0' ++ t) = horner base 0 t := by
  rw [horner_append, horner_zeros]

theorem isDigitOf_zeros (hb : IsBase base) (hds : ∀ c ∈ ds, isDigitOf base c = true) :
    ∀ c ∈ List.replicate z '0' ++ ds, isDigitOf base c = true := by
  intro c hc
  rcases List.mem_append.mp hc with hc | hc
  · rw [List.eq_of_mem_replicate hc]
    rcases hb with rfl | rfl | rfl
    all_goals decide
  · exact hds c hc

/-- How the type of the scanner finds the base. -/
inductive Finds (f : Flags) (n z : ℕ) : Char → ℕ → Bool → Char → Prop
  | hex {ch type : Char} (hch : ch = 'x' ∨ ch = 'X') (ht : type = 'i' ∨ type = 'x') :
      Finds f n z ch 16 true type
  | given {ch type : Char} {base : ℕ} (hb : startBase type = base) (ht : type ≠ 'i') :
      Finds f n z ch base false type
  | zero {ch : Char} {base : ℕ} (h0 : n = 0) : Finds f n z ch base false 'i'
  | octal {ch : Char} (halt : f.alt = true) : Finds f n z ch 8 false 'i'
  | decimal {ch : Char} (h0 : n ≠ 0) (hz : z = 0) : Finds f n z ch 10 false 'i'

theorem reads_number (hb : IsBase base) (ht : Figures f base n ds)
    (hf : Finds f n z ch base hex type) :
    Reads type ((if hex then ['0', ch] else []) ++ List.replicate z '0' ++ ds) n := by
  have hdig := isDigitOf_zeros (z := z) hb ht.digits
  have hval : horner base 0 (List.replicate z '0' ++ ds) = n := by
    rw [horner_zeros_append]
    exact ht.value
  cases hf with
  | hex hch htype =>
      rw [← hval]
      exact reads_hex htype hch hdig
  | given hbase htype =>
      rw [if_neg (by simp), List.nil_append, ← hval, ← hbase]
      rw [← hbase] at hdig
      exact reads_digits type hdig fun h => absurd h htype
  | zero h0 =>
      have hzeros : List.replicate z '0' ++ ds = '0' :: List.replicate z '0' := by
        rw [ht.zero h0, ← List.replicate_succ']
        rfl
      rw [if_neg (by simp), List.nil_append, hzeros, h0, ← horner_zeros 8 z]
      apply reads_octal
      intro c hc
      rw [List.eq_of_mem_replicate hc]
      decide
  | octal halt =>
      -- the first digit is a zero, with and without padding
      obtain ⟨r, hr⟩ : ∃ r, List.replicate z '0' ++ ds = '0' :: r := by
        cases z with
        | zero =>
            have hhead := ht.octal halt rfl
            cases ds with
            | nil => exact absurd hhead (by simp)
            | cons c r =>
                obtain rfl : c = '0' := by simpa using hhead
                exact ⟨r, rfl⟩
        | succ z => exact ⟨_, rfl⟩
      rw [if_neg (by simp), List.nil_append]
      rw [hr] at hdig hval ⊢
      rw [horner_cons] at hval
      rw [← hval]
      exact reads_octal fun c hc => hdig c (List.mem_cons_of_mem _ hc)
  | decimal h0 hz =>
      subst hz
      rw [if_neg (by simp), List.nil_append]
      rw [List.replicate_zero, List.nil_append] at hdig hval ⊢
      rw [← hval]
      exact reads_digits 'i' hdig fun _ => ht.head h0 (by decide)

theorem innum_numberText (hb : IsBase base) (hl : f.ladjust = false) (hp : f.prec = none)
    (hroom : f.zeropad = true → f.width ≤ 63)
    (hsign : f.sign = none ∨ f.sign = some ' ' ∨ f.sign = some '+' ∨ f.sign = some '-')
    (hfloat : isFloat type = false)
    (hfind : Finds f (printed f v) (padding f ch base hex v) ch base hex type) (size : Size) :
    innum type defaultWidth size (numberText f ch base hex v) =
      .ok ⟨true, stored false size
        (if f.sign = some '-' then -BitVec.ofNat 64 (printed f v)
          else BitVec.ofNat 64 (printed f v)) [], [], true,
          (numberText f ch base hex v).length⟩ := by
  have hfig := figures_spec hb hp (decide (ch = 'X')) v
  obtain ⟨k, htext, -⟩ := numberText_eq hl hp ch base hex v
  rw [htext]
  obtain ⟨z, hz⟩ : ∃ z, z = padding f ch base hex v := ⟨_, rfl⟩
  rw [← hz] at hfind ⊢
  unfold padding at hz
  generalize figures f (decide (ch = 'X')) base v = t at hfig hz ⊢
  have hlen := hfig.length
  have hwidth : (if f.zeropad then f.width else 0) ≤ 63 := by
    split_ifs with hzp
    · exact hroom hzp
    · exact Nat.zero_le _
  have hone : f.sign.toList.length ≤ 1 := by
    cases f.sign <;> simp
  have hdig := isDigitOf_zeros (z := z) hb hfig.digits
  have hfirst : ∃ c r, (if hex then ['0', ch] else []) ++ List.replicate z '0' ++ t = c :: r ∧
      isDigitOf base c = true := by
    cases hex with
    | true =>
        have hzero := isDigitOf_zeros (z := 1) hb hfig.digits '0' (by simp)
        exact ⟨'0', _, rfl, hzero⟩
    | false =>
        rw [if_neg (by simp), List.nil_append]
        obtain ⟨c, r, hcr⟩ := List.exists_cons_of_ne_nil
          (show List.replicate z '0' ++ t ≠ [] by simp [hfig.nonempty])
        exact ⟨c, r, hcr, hdig c (by rw [hcr]; simp)⟩
  apply innum_text (reads_number hb hfig hfind) hfloat hfirst hsign
  simp only [List.length_append, List.length_replicate]
  cases hex with
  | true =>
      simp only [if_true, List.length_cons, List.length_nil] at hz ⊢
      omega
  | false =>
      simp only [Bool.false_eq_true, if_false, List.length_nil] at hz ⊢
      omega

/-- The modifiers of an `int`, a `long` and a `long long`. -/
inductive Modifier where
  | none | l | ll
  deriving DecidableEq, Repr

def Modifier.text : Modifier → List Char
  | .none => []
  | .l => ['l']
  | .ll => ['l', 'l']

def Modifier.size : Modifier → Size
  | .none => .regular
  | .l => .long
  | .ll => .longdouble

def Modifier.value (a : BitVec 64) : Modifier → Stored
  | .none => .int (a.setWidth 32)
  | .l => .long (a.setWidth 32)
  | .ll => .longlong a

def Flags.Has (f : Flags) : Modifier → Prop
  | .none => f.longint = false ∧ f.longdbl = false ∧ f.shortint = false
  | .l => f.longint = true ∧ f.longdbl = false
  | .ll => f.longdbl = true

variable {m : Modifier} {a : BitVec 64}

/-- What is stored of a value of 64 bits. -/
theorem stored_congr {x y : BitVec 64} (hl : m = .ll → x = y)
    (hs : m ≠ .ll → x.setWidth 32 = y.setWidth 32) :
    stored false m.size x [] = stored false m.size y [] := by
  cases m with
  | none => exact congrArg (fun b => some (Stored.int b)) (hs (by decide))
  | l => exact congrArg (fun b => some (Stored.long b)) (hs (by decide))
  | ll => exact congrArg (fun b => some (Stored.longlong b)) (hl rfl)

theorem Flags.Has.longdbl (h : f.Has m) : f.longdbl = decide (m = .ll) := by
  cases m with
  | none => exact h.2.1
  | l => exact h.2
  | ll => exact h

theorem stored_printed (h : f.Has m) (v : BitVec 64) :
    stored false m.size (BitVec.ofNat 64 (printed f v)) [] = stored false m.size v [] := by
  unfold printed
  rw [h.longdbl]
  apply stored_congr
  · rintro rfl
    simp
  · intro hm
    rw [if_neg (by simpa using hm), BitVec.setWidth_ofNat_of_le (by decide), BitVec.ofNat_toNat,
      BitVec.setWidth_eq]

theorem stored_neg (m : Modifier) {x y : BitVec 64}
    (h : stored false m.size x [] = stored false m.size y []) :
    stored false m.size (-x) [] = stored false m.size (-y) [] := by
  cases m with
  | none =>
      have hxy : x.setWidth 32 = y.setWidth 32 := Stored.int.inj (Option.some.inj h)
      apply stored_congr (m := .none) (fun h => nomatch h)
      intro _
      rw [BitVec.setWidth_neg_of_le (by decide), BitVec.setWidth_neg_of_le (by decide), hxy]
  | l =>
      have hxy : x.setWidth 32 = y.setWidth 32 := Stored.long.inj (Option.some.inj h)
      apply stored_congr (m := .l) (fun h => nomatch h)
      intro _
      rw [BitVec.setWidth_neg_of_le (by decide), BitVec.setWidth_neg_of_le (by decide), hxy]
  | ll =>
      have hxy : x = y := Stored.longlong.inj (Option.some.inj h)
      rw [hxy]

theorem setWidth_signExtend (x : BitVec 32) : (x.signExtend 64).setWidth 32 = x := by
  ext i hi
  simp [BitVec.getLsbD_signExtend, hi]
  omega

theorem stored_argSigned (h : f.Has m) (a : BitVec 64) :
    stored false m.size (argSigned f a) [] = some (m.value a) := by
  unfold argSigned
  cases m with
  | none =>
      obtain ⟨h₁, h₂, h₃⟩ := h
      simp [h₁, h₂, h₃, Modifier.size, Modifier.value, stored, setWidth_signExtend]
  | l =>
      obtain ⟨h₁, h₂⟩ := h
      simp [h₁, h₂, Modifier.size, Modifier.value, stored, setWidth_signExtend]
  | ll =>
      have h₁ : f.longdbl = true := h
      simp [h₁, Modifier.size, Modifier.value, stored]

theorem stored_argUnsigned (h : f.Has m) (a : BitVec 64) :
    stored false m.size (argUnsigned f a) [] = some (m.value a) := by
  unfold argUnsigned
  cases m with
  | none =>
      obtain ⟨h₁, h₂, h₃⟩ := h
      simp [h₁, h₂, h₃, Modifier.size, Modifier.value, stored]
  | l =>
      obtain ⟨h₁, h₂⟩ := h
      simp [h₁, h₂, Modifier.size, Modifier.value, stored]
  | ll =>
      have h₁ : f.longdbl = true := h
      simp [h₁, Modifier.size, Modifier.value, stored]

theorem printed_zero (f : Flags) : printed f 0 = 0 := by
  unfold printed
  split_ifs <;> rfl

theorem padding_eq_zero (hl : f.ladjust = false) (hp : f.prec = none)
    (hw : f.zeropad = true →
      f.width ≤ (numberText { f with width := 0 } ch base hex v).length) :
    padding f ch base hex v = 0 := by
  obtain ⟨k, htext, hk⟩ := numberText_eq (f := { f with width := 0 }) hl hp ch base hex v
  have hnone : padding { f with width := 0 } ch base hex v = 0 := by
    unfold padding
    split_ifs <;> exact Nat.zero_sub _
  have hfig : figures { f with width := 0 } (decide (ch = 'X')) base v =
      figures f (decide (ch = 'X')) base v := rfl
  rw [hk rfl, hnone, hfig] at htext
  have hlen := congrArg List.length htext
  simp only [List.length_append, List.length_replicate] at hlen
  unfold padding
  cases hz : f.zeropad with
  | false =>
      rw [if_neg (by simp)]
      exact Nat.zero_sub _
  | true =>
      have hle := hw hz
      rw [if_pos rfl]
      cases hex with
      | true =>
          simp only [if_true, List.length_cons, List.length_nil] at hlen ⊢
          omega
      | false =>
          simp only [Bool.false_eq_true, if_false, List.length_nil] at hlen ⊢
          omega

/-- The conditions on the flags: nothing follows the number, no precision is given, and zeros do
not make the field longer than the array of the scanner. -/
structure Flags.Plain (f : Flags) : Prop where
  ladjust : f.ladjust = false
  prec : f.prec = none
  room : f.zeropad = true → f.width ≤ 63

theorem innum_signedText (hf : f.Plain) (hsign : IsFlagSign f.sign) (hm : f.Has m)
    (ht : type = 'd' ∨ type = 'i' ∧ (f.zeropad = true →
      f.width ≤ (signedText { f with width := 0 } ch a).length)) :
    innum type defaultWidth m.size (signedText f ch a) =
      .ok ⟨true, some (m.value a), [], true, (signedText f ch a).length⟩ := by
  have hfloat : isFloat type = false := by
    rcases ht with rfl | ⟨rfl, -⟩
    all_goals decide
  have hfind : ∀ {g : Flags} {v : BitVec 64}, g.ladjust = false → g.prec = none →
      (type = 'i' → g.zeropad = true →
        g.width ≤ (numberText { g with width := 0 } ch 10 false v).length) →
      Finds g (printed g v) (padding g ch 10 false v) ch 10 false type := by
    intro g v hl hp hw
    rcases ht with rfl | ⟨rfl, -⟩
    · exact .given rfl (by decide)
    · by_cases h0 : printed g v = 0
      · exact .zero h0
      · exact .decimal h0 (padding_eq_zero hl hp (hw rfl))
  have hvalue := stored_argSigned hm a
  have hargs : argSigned { f with width := 0 } a = argSigned f a := rfl
  unfold signedText at ht ⊢
  dsimp only at ht ⊢
  rw [hargs] at ht
  generalize argSigned f a = v at ht hvalue ⊢
  by_cases hneg : v.slt 0 = true
  · rw [if_pos hneg] at ht ⊢
    have hgo := innum_numberText (f := { f with sign := some '-' }) (v := -v) (.inr (.inl rfl))
      hf.ladjust hf.prec hf.room (.inr (.inr (.inr rfl))) hfloat
      (hfind hf.ladjust hf.prec fun hi => (ht.resolve_left (by rw [hi]; decide)).2) m.size
    rw [hgo, if_pos rfl]
    have hprinted := stored_neg m (stored_printed hm (-v))
    rw [BitVec.neg_neg, hvalue] at hprinted
    rw [← hprinted]
    rfl
  · rw [if_neg hneg] at ht ⊢
    have hsign' : f.sign = none ∨ f.sign = some ' ' ∨ f.sign = some '+' ∨ f.sign = some '-' := by
      rcases hsign with h | h | h
      · exact .inl h
      · exact .inr (.inl h)
      · exact .inr (.inr (.inl h))
    have hminus : f.sign ≠ some '-' := by
      rcases hsign with h | h | h
      all_goals
        rw [h]
        decide
    have hgo := innum_numberText (v := v) (.inr (.inl rfl)) hf.ladjust hf.prec hf.room hsign' hfloat
      (hfind hf.ladjust hf.prec fun hi => (ht.resolve_left (by rw [hi]; decide)).2) m.size
    rw [hgo, if_neg hminus, stored_printed hm v, hvalue]

theorem innum_unsignedText (hb : IsBase base) (hf : f.Plain) (hm : f.Has m)
    (hfloat : isFloat type = false)
    (hfind : ∀ g : Flags, g.alt = f.alt → g.longdbl = f.longdbl → ∀ z,
      Finds g (printed g (argUnsigned f a)) z ch base
        (base = 16 && f.alt && argUnsigned f a ≠ 0) type) :
    innum type defaultWidth m.size (unsignedText f ch base a) =
      .ok ⟨true, some (m.value a), [], true, (unsignedText f ch base a).length⟩ := by
  have hvalue := stored_argUnsigned hm a
  unfold unsignedText
  dsimp only
  have hgo := innum_numberText (f := { f with sign := none }) (v := argUnsigned f a) hb hf.ladjust
    hf.prec hf.room (.inl rfl) hfloat (hfind { f with sign := none } rfl rfl _) m.size
  rw [hgo, if_neg (by simp)]
  have hprinted := stored_printed hm (argUnsigned f a)
  rw [hvalue] at hprinted
  rw [← hprinted]
  rfl

def ReadBy (alt : Bool) (ch type : Char) : Prop :=
  (ch = 'd' ∨ ch = 'i') ∧ (type = 'd' ∨ type = 'i') ∨
    ch = 'u' ∧ type = 'u' ∨
    ch = 'o' ∧ (type = 'o' ∨ alt = true ∧ type = 'i') ∨
    (ch = 'x' ∨ ch = 'X') ∧ (type = 'x' ∨ alt = true ∧ type = 'i')

def Unpadded (f : Flags) (ch : Char) (a : BitVec 64) : Prop :=
  f.zeropad = true → ∀ t, conversion { f with width := 0 } ch a = some t → f.width ≤ t.length

theorem readBy_type {alt : Bool} (h : ReadBy alt ch type) :
    type = 'd' ∨ type = 'i' ∨ type = 'u' ∨ type = 'o' ∨ type = 'x' := by
  unfold ReadBy at h
  tauto

theorem directive_modifier (m : Modifier)
    (ht : type = 'd' ∨ type = 'i' ∨ type = 'u' ∨ type = 'o' ∨ type = 'x') :
    directive (m.text ++ [type]) = some (defaultWidth, m.size, type) := by
  rcases ht with rfl | rfl | rfl | rfl | rfl
  all_goals
    cases m
    all_goals decide

theorem innum_conversion (hf : f.Plain) (hsign : IsFlagSign f.sign) (hm : f.Has m)
    (hread : ReadBy f.alt ch type)
    (hzeros : type = 'i' → ch = 'd' ∨ ch = 'i' → Unpadded f ch a) :
    ∃ text, conversion f ch a = some text ∧
      innum type defaultWidth m.size text =
        .ok ⟨true, some (m.value a), [], true, text.length⟩ := by
  rcases hread with ⟨hch, htype⟩ | ⟨rfl, rfl⟩ | ⟨rfl, htype⟩ | ⟨hch, htype⟩
  · have hconv : ∀ g : Flags, conversion g ch a = some (signedText g ch a) := by
      intro g
      rcases hch with rfl | rfl
      all_goals rfl
    refine ⟨_, hconv f, innum_signedText hf hsign hm ?_⟩
    rcases htype with rfl | rfl
    · exact .inl rfl
    · exact .inr ⟨rfl, fun hz => hzeros rfl hch hz _ (hconv _)⟩
  · refine ⟨_, rfl, innum_unsignedText (.inr (.inl rfl)) hf hm (by decide) ?_⟩
    intro g _ _ z
    exact .given rfl (by decide)
  · refine ⟨_, rfl, ?_⟩
    rcases htype with rfl | ⟨halt, rfl⟩
    · apply innum_unsignedText (.inl rfl) hf hm (by decide)
      intro g _ _ z
      exact .given rfl (by decide)
    · apply innum_unsignedText (.inl rfl) hf hm (by decide)
      intro g hg _ z
      exact .octal (hg.trans halt)
  · have hconv : conversion f ch a = some (unsignedText f ch 16 a) := by
      rcases hch with rfl | rfl
      all_goals rfl
    have hx : type = 'i' ∨ type = 'x' := by
      rcases htype with rfl | ⟨-, rfl⟩
      · exact .inr rfl
      · exact .inl rfl
    have hfloat : isFloat type = false := by
      rcases hx with rfl | rfl
      all_goals decide
    refine ⟨_, hconv, innum_unsignedText (.inr (.inr rfl)) hf hm hfloat ?_⟩
    intro g hg _ z
    cases hhex : (decide (16 = 16) && f.alt && decide (argUnsigned f a ≠ 0)) with
    | true => exact .hex hch hx
    | false =>
        rcases htype with rfl | ⟨halt, rfl⟩
        · exact .given rfl (by decide)
        · have h0 : argUnsigned f a = 0 := by simpa [halt] using hhex
          refine .zero ?_
          rw [h0]
          exact printed_zero g

/-- What is printed for an integer is read back, and read to its end. -/
theorem doscan_doprnt (fmt : List Char) (f : Flags) (ch type : Char) (m : Modifier) (a : BitVec 64)
    (hfmt : rflag fmt.length fmt {} = some (f, ch, [])) (hf : f.Plain) (hm : f.Has m)
    (hread : ReadBy f.alt ch type)
    (hzeros : type = 'i' → ch = 'd' ∨ ch = 'i' → Unpadded f ch a) :
    ∃ text, doprnt fmt a = some text ∧
      doscan (m.text ++ [type]) text =
        some (.ok ⟨true, some (m.value a), [], true, text.length⟩) := by
  obtain ⟨text, htext, hscan⟩ :=
    innum_conversion hf (rflag_sign hfmt (.inl rfl)) hm hread hzeros
  refine ⟨text, ?_, ?_⟩
  · rw [doprnt, hfmt]
    exact htext
  · rw [doscan, directive_modifier m (readBy_type hread)]
    dsimp only
    rw [hscan]

/-- The most negative value, in a field that is wider than it. -/
theorem doscan_doprnt_min :
    (∃ text, doprnt ['+', '2', '4', 'l', 'l', 'd'] (BitVec.intMin 64) = some text ∧
      doscan ['l', 'l', 'i'] text =
        some (.ok ⟨true, some (.longlong (BitVec.intMin 64)), [], true, text.length⟩)) ∧
      (doprnt ['+', '2', '4', 'l', 'l', 'd'] (BitVec.intMin 64)).map List.length = some 24 :=
  ⟨doscan_doprnt ['+', '2', '4', 'l', 'l', 'd']
    { longint := true, longdbl := true, sign := some '+', width := 24 } 'd' 'i' .ll
      (BitVec.intMin 64)
    (by decide +kernel) ⟨rfl, rfl, fun h => nomatch h⟩ rfl (.inl ⟨.inl rfl, .inr rfl⟩)
    (fun _ _ h => nomatch h), by decide +kernel⟩

/-- With zeros in front the scanner takes a decimal number for an octal one. -/
theorem zeros_read_as_octal :
    doprnt ['0', '5', 'l', 'l', 'd'] 123 = some ['0', '0', '1', '2', '3'] ∧
      doscan ['l', 'l', 'i'] ['0', '0', '1', '2', '3'] =
        some (.ok ⟨true, some (.longlong 83), [], true, 5⟩) ∧
      Modifier.ll.value 123 ≠ .longlong 83 := by
  decide +kernel

end DjgppLibc.Doprnt
