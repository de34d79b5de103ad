import DjgppLibc.DoprntFormats
import DjgppLibc.StdioBuffers

/-!
# What is counted is what is put

`cnt` grows by the larger of the width and the real size, and the characters go
out in seven pieces. The two agree for every combination of flags as long as the
number of characters is an `int`. A string stream takes the characters that fit
and drops the rest, so the text does not depend on its size.
-/
namespace DjgppLibc.DoprntLoop
open Doprnt (Flags)
open ByteMemory
open Stdio (Stream Fd Os)

variable {a : Args} {trav : ℤ → Option ℕ} {n : ℕ} {fmt : List Char} {l : Lists} {cnt c : ℤ}
  {text : List Char}

theorem int_eq {x : ℤ} (h₀ : -2147483648 ≤ x) (h₁ : x < 2147483648) : int x = x :=
  Int.bmod_eq_of_le (by omega) (by omega)

/-- What `cnt` grows by is the number of characters, if an `int` holds that. -/
def Balanced (r : List Char × ℤ) : Prop := r.1.length ≤ INT_MAX → r.2 = r.1.length

theorem realSize_eq (sign hex : Option Char) (dprec : ℤ) {size : ℤ} (h₀ : 0 ≤ size)
    (h : max dprec size + sign.toList.length + (hexPrefix hex).length ≤ INT_MAX) :
    realSize sign hex dprec size =
      max dprec size + sign.toList.length + (hexPrefix hex).length := by
  have hmax : 0 ≤ max dprec size := le_max_of_le_right h₀
  unfold INT_MAX at h
  unfold realSize
  cases sign <;> cases hex <;>
    simp only [hexPrefix, Option.toList, List.length_nil, List.length_cons, ne_eq,
      not_true_eq_false, reduceCtorEq, not_false_eq_true, if_true, if_false] at h ⊢
  case none.none => omega
  case none.some =>
    rw [int_eq (by omega) (by omega)]
    omega
  case some.none =>
    rw [int_eq (by omega) (by omega)]
    omega
  case some.some =>
    have hsign : int (max dprec size + 1) = max dprec size + 1 := int_eq (by omega) (by omega)
    rw [hsign, int_eq (by omega) (by omega)]
    omega

/-- The padding stands in one of three places. -/
theorem padding_length (ladjust zeropad : Bool) (width : ℤ) {realsz : ℤ} (h : 0 ≤ realsz) :
    (if !ladjust && !zeropad && width ≠ 0 then
        List.replicate (width - realsz).toNat ' ' else []).length +
      (if !ladjust && zeropad then List.replicate (width - realsz).toNat '0' else []).length +
      (if ladjust then List.replicate (width - realsz).toNat ' ' else []).length =
    (width - realsz).toNat := by
  cases ladjust with
  | true => simp
  | false =>
      cases zeropad with
      | true => simp
      | false =>
          by_cases hw : width = 0
          · have hnone : (-realsz).toNat = 0 := by omega
            simp [hw, hnone]
          · simp [hw]

theorem pforw_balanced (f : Flags) (width dprec : ℤ) (hex : Option Char) (t : List Char) :
    Balanced (pforw f width dprec hex t) := by
  intro hlen
  unfold pforw at hlen ⊢
  simp only [List.length_append, List.length_replicate] at hlen ⊢
  have hreal := realSize_eq f.sign hex dprec (Int.natCast_nonneg t.length) (by omega)
  have hnonneg : 0 ≤ realSize f.sign hex dprec t.length := by omega
  have hpad := padding_length f.ladjust f.zeropad width hnonneg
  omega

theorem numberField_balanced (f : Flags) (width : ℤ) (ch : Char) (base : ℕ) (hex : Bool)
    (v : BitVec 64) : Balanced (numberField f width ch base hex v) :=
  pforw_balanced _ _ _ _ _

theorem signedField_balanced (f : Flags) (width : ℤ) (ch : Char) (arg : BitVec 64) :
    Balanced (signedField f width ch arg) := by
  unfold signedField
  dsimp only
  split_ifs <;> exact numberField_balanced _ _ _ _ _ _

theorem unsignedField_balanced (f : Flags) (width : ℤ) (ch : Char) (base : ℕ) (arg : BitVec 64) :
    Balanced (unsignedField f width ch base arg) :=
  numberField_balanced _ _ _ _ _ _

theorem field_balanced (f : Flags) (width : ℤ) (ch : Char) (p : ℕ) {r : (List Char × ℤ) × ℕ}
    (h : field a f width ch p = some r) : Balanced r.1 := by
  unfold field at h
  split at h
  case h_11 =>
    obtain ⟨q, hq, rfl⟩ := Option.map_eq_some_iff.mp h
    obtain ⟨size, -, rfl⟩ := Option.map_eq_some_iff.mp hq
    exact pforw_balanced _ _ _ _ _
  case h_12 => cases h
  case h_1 | h_2 | h_3 =>
    rw [← Option.some.inj h]
    exact signedField_balanced _ _ _ _
  case h_10 =>
    rw [← Option.some.inj h]
    exact numberField_balanced _ _ _ _ _ _
  all_goals
    rw [← Option.some.inj h]
    exact unsignedField_balanced _ _ _ _ _

theorem conversion_balanced {d : Directive} {ch : Char} {r : (List Char × ℤ) × Lists}
    (h : conversion a d ch = some r) : Balanced r.1 := by
  unfold conversion at h
  split_ifs at h
  · obtain rfl := Option.some.inj h
    exact pforw_balanced _ _ _ _ _
  · split at h
    · cases h
    · obtain ⟨q, hq, rfl⟩ := Option.map_eq_some_iff.mp h
      exact field_balanced _ _ _ _ hq
  · obtain rfl := Option.some.inj h
    exact fun _ => rfl

/-- The count goes with the text for as long as an `int` holds it. -/
theorem loop_balanced (h : loop a trav n fmt l cnt = some (text, c)) (h₀ : 0 ≤ cnt)
    (hlen : cnt + text.length ≤ INT_MAX) : c = cnt + text.length := by
  induction n generalizing fmt l cnt text with
  | zero => cases h
  | succ n ih =>
      unfold INT_MAX at hlen ih
      cases fmt with
      | nil =>
          obtain ⟨rfl, rfl⟩ := Prod.mk.inj (Option.some.inj h)
          exact (Int.add_zero _).symm
      | cons ch fmt =>
          rw [loop] at h
          split_ifs at h with hch
          · obtain ⟨⟨rest, c'⟩, hr, hrest⟩ := Option.map_eq_some_iff.mp h
            obtain ⟨rfl, rfl⟩ := Prod.mk.inj hrest
            dsimp only at hlen ⊢
            rw [List.length_cons] at hlen ⊢
            rw [int_eq (by omega) (by omega)] at hr
            have hc := ih hr (by omega) (by omega)
            omega
          · split at h
            · cases h
            · split_ifs at h
              · obtain ⟨rfl, rfl⟩ := Prod.mk.inj (Option.some.inj h)
                exact (Int.add_zero _).symm
              · split at h
                · cases h
                · next hconv =>
                    obtain ⟨⟨rest, c'⟩, hr, hrest⟩ := Option.map_eq_some_iff.mp h
                    obtain ⟨rfl, rfl⟩ := Prod.mk.inj hrest
                    have hput := conversion_balanced hconv
                    unfold Balanced INT_MAX at hput
                    dsimp only at hlen hput ⊢
                    rw [List.length_append] at hlen ⊢
                    rw [hput (by omega), int_eq (by omega) (by omega)] at hr
                    have hc := ih hr (by omega) (by omega)
                    omega

theorem doprnt_balanced {fuel : ℕ} (h : doprnt a fuel fmt = some (text, c))
    (hlen : text.length ≤ INT_MAX) : c = text.length := by
  have hc := loop_balanced h (Int.le_refl 0) (by omega)
  omega

theorem findNul_isSome (t : ℕ → Char) (n i j : ℕ) (hj : t (i + j) = '\x00') (hn : j < n) :
    ∃ k, findNul t n i = some k := by
  induction n generalizing i j with
  | zero => omega
  | succ n ih =>
      rw [findNul]
      split_ifs with hnul
      · exact ⟨i, rfl⟩
      · cases j with
        | zero => exact absurd hj hnul
        | succ j => exact ih (i + 1) j (by rw [← hj]; congr 1; omega) (by omega)

/-- The memory holds a NUL. -/
def Args.HasNul (a : Args) : Prop := ∃ p < 4294967296, a.mem p = 0

theorem Args.HasNul.char (h : a.HasNul) (p : BitVec 32) :
    ∃ j < 4294967296, a.char p (0 + j) = '\x00' := by
  obtain ⟨q, hq, hnul⟩ := h
  have hp := p.isLt
  refine ⟨(q + 4294967296 - p.toNat) % 4294967296, Nat.mod_lt _ (by decide), ?_⟩
  unfold Args.char
  rw [show (p.toNat + (0 + (q + 4294967296 - p.toNat) % 4294967296)) % 4294967296 = q by omega,
    hnul]
  rfl

theorem stringSize_isSome (prec : Option ℕ) {t : ℕ → Char} {j : ℕ} (hj : j < 4294967296)
    (hnul : t (0 + j) = '\x00') : ∃ size, stringSize prec t = some size := by
  obtain ⟨k, hk⟩ := findNul_isSome t 4294967296 0 j hnul hj
  unfold stringSize
  cases prec with
  | none => exact ⟨int k, by rw [hk]; rfl⟩
  | some prec =>
      dsimp only
      split <;> exact ⟨_, rfl⟩

theorem stringField_isSome (h : a.HasNul) (f : Flags) (width : ℤ) (p : BitVec 32) :
    ∃ r, stringField a f width p = some r := by
  have hnul : ∃ j < 4294967296, (if p = 0 then NULL_REP else a.char p) (0 + j) = '\x00' := by
    split_ifs
    · exact ⟨6, by decide, rfl⟩
    · exact h.char p
  obtain ⟨j, hj, hnul⟩ := hnul
  obtain ⟨size, hsize⟩ := stringSize_isSome f.prec hj hnul
  unfold stringField
  dsimp only
  rw [hsize]
  exact ⟨_, rfl⟩

/-- Every conversion of a sequential format can be printed. -/
theorem conversion_isSome (h : a.HasNul) (v : Conv) (d : Directive)
    (hd : d.lists.numeric = false) :
    ∃ r, conversion a d v.ch = some r ∧ r.2.numeric = false := by
  have hplace : d.lists.place = some d.lists.argp := by
    unfold Lists.place
    rw [hd]
    rfl
  cases v
  case c => exact ⟨_, rfl, hd⟩
  case s =>
    obtain ⟨r, hr⟩ := stringField_isSome h d.flags d.width (a.word d.lists.argp)
    refine ⟨(r, { d.lists with argp := d.lists.argp + 1 }), ?_, hd⟩
    unfold conversion
    rw [if_neg (by decide), if_neg (by decide), if_pos (by decide), hplace]
    unfold field Conv.ch
    dsimp only
    rw [hr]
    rfl
  all_goals
    unfold conversion
    rw [if_neg (by decide), if_neg (by decide), if_pos (by decide), hplace]
    exact ⟨_, rfl, hd⟩

theorem Spec.length_text (s : Spec Unit) : 0 < (s.text noRef).length := by
  unfold Spec.text
  rw [List.length_cons]
  omega

theorem loop_isSome (h : a.HasNul) (fmt : List (Item Unit))
    (hn : (formatText noRef fmt).length < n) (hl : l.numeric = false) :
    ∃ r, loop a trav n (formatText noRef fmt) l cnt = some r := by
  induction fmt generalizing n l cnt with
  | nil =>
      obtain ⟨n, rfl⟩ : ∃ k, n = k + 1 := ⟨n - 1, by omega⟩
      exact ⟨_, rfl⟩
  | cons i fmt ih =>
      rw [formatText_cons, List.length_append] at hn
      obtain ⟨n, rfl⟩ : ∃ k, n = k + 1 := ⟨n - 1, by omega⟩
      rw [formatText_cons]
      cases i with
      | plain c hc =>
          have hlen : ((Item.plain c hc).text noRef).length = 1 := rfl
          obtain ⟨r, hr⟩ : ∃ r, loop a trav n (formatText noRef fmt) l (int (cnt + 1)) = some r :=
            ih (by omega) hl
          refine ⟨(c :: r.1, r.2), ?_⟩
          change loop a trav (n + 1) (c :: formatText noRef fmt) l cnt = _
          rw [loop_plain hc.1, hr]
          rfl
      | directive s =>
          have hlen := s.length_text
          change (s.text noRef).length + _ < n + 1 at hn
          obtain ⟨⟨r, l₁⟩, hprint, hl₁⟩ := conversion_isSome h s.conv (s.ready a l) hl
          obtain ⟨q, hq⟩ : ∃ q, loop a trav n (formatText noRef fmt) l₁ (int (cnt + r.2)) =
            some q :=
            ih (by omega) hl₁
          refine ⟨(r.1 ++ q.1, q.2), ?_⟩
          change loop a trav (n + 1) (s.text noRef ++ formatText noRef fmt) l cnt = _
          rw [loop_sequential s hprint, hq]
          rfl

theorem doprnt_isSome (h : a.HasNul) (fuel : ℕ) (fmt : List (Item Unit)) :
    ∃ text cnt, doprnt a fuel (formatText noRef fmt) = some (text, cnt) := by
  obtain ⟨⟨text, cnt⟩, hr⟩ : ∃ r, doprnt a fuel (formatText noRef fmt) = some r :=
    loop_isSome h fmt (Nat.lt_succ_self _) rfl
  exact ⟨text, cnt, hr⟩

/-- A stream as `__stropenw` leaves it. -/
structure IsString (f : Stream) : Prop where
  wrt : f.flag.wrt = true
  strg : f.flag.strg = true
  rw : f.flag.rw = false
  cnt : 0 ≤ f.cnt

theorem isString_stropenw (mem : Mem) (str len : ℕ) : IsString (stropenw mem str len) :=
  ⟨rfl, rfl, rfl, Int.natCast_nonneg len⟩

variable (d : Fd) (os : Os) (f : Stream)

/-- A full string takes nothing, because `_flsbuf` does nothing for it. -/
theorem putc_full (hf : IsString f) (hcnt : f.cnt = 0) (x : UInt8) :
    (Stdio.putc d os x f).1 = f := by
  unfold Stdio.putc Stdio.isTextFile Stdio.putcRaw Stdio.flsbuf
  simp [hf.strg, hf.wrt, hf.rw, hcnt]

theorem putc_room (hf : IsString f) (hcnt : 0 < f.cnt) (x : UInt8) :
    (Stdio.putc d os x f).1 = { f with cnt := f.cnt - 1 }.store [x] := by
  unfold Stdio.putc Stdio.isTextFile Stdio.putcRaw
  simp [hf.strg, hcnt]

theorem puts_string (hf : IsString f) (text : List Char) {k : ℕ} (hk : f.cnt = k) :
    (puts d os text f).mem = putAll f.mem f.ptr ((text.take k).map byteOf) ∧
      (puts d os text f).ptr = f.ptr + (text.take k).length := by
  induction text generalizing f k with
  | nil => simp [puts, putAll]
  | cons c text ih =>
      have hstep : puts d os (c :: text) f = puts d os text (Stdio.putc d os (byteOf c) f).1 := rfl
      rw [hstep]
      cases k with
      | zero =>
          rw [putc_full d os f hf hk]
          exact ih f hf hk
      | succ k =>
          rw [putc_room d os f hf (by omega)]
          obtain ⟨hmem, hptr⟩ := ih ({ f with cnt := f.cnt - 1 }.store [byteOf c])
            ⟨hf.wrt, hf.strg, hf.rw, by change 0 ≤ f.cnt - 1; omega⟩
            (k := k) (by change f.cnt - 1 = k; omega)
          rw [hmem, hptr]
          constructor
          · rfl
          · change f.ptr + 1 + _ = _
            rw [List.take_succ_cons, List.length_cons]
            omega

/-- The memory after the call: the text as far as there is room, and a NUL behind it. -/
def printed (m : Mem) (str n : ℕ) (text : List Char) : Mem :=
  if n = 0 then m else putAll m str ((text.take (n - 1)).map byteOf ++ [0])

theorem vsnprintf_eq {fuel : ℕ} (h : doprnt a fuel fmt = some (text, c)) (str : ℕ) {n : ℕ}
    (hn : n ≤ INT_MAX) :
    vsnprintf a d os fuel str n fmt = some (printed a.mem str n text, c) := by
  have hto : ∀ ptr len : ℕ, doprntTo a d os fuel fmt (stropenw a.mem ptr len) =
      some (puts d os text (stropenw a.mem ptr len), c) := by
    intro ptr len
    unfold doprntTo
    rw [if_neg (by simp [stropenw])]
    dsimp only
    rw [if_neg (by simp [stropenw]), h]
    rfl
  unfold vsnprintf printed
  rw [if_neg (by omega)]
  cases n with
  | zero =>
      obtain ⟨hmem, -⟩ := puts_string d os _ (isString_stropenw a.mem 0 0) text rfl
      have hto := hto 0 0
      dsimp only
      rw [if_neg (by omega), Int.natCast_zero.symm, hto]
      simp only [Option.map_some, Nat.lt_irrefl, if_false, if_true]
      rw [hmem]
      rfl
  | succ n =>
      obtain ⟨hmem, hptr⟩ := puts_string d os _ (isString_stropenw a.mem str n) text rfl
      have hto := hto str n
      dsimp only
      rw [if_pos (by omega), Nat.add_sub_cancel, hto]
      simp only [Option.map_some, Nat.succ_pos, if_true, Nat.add_one_ne_zero, if_false]
      rw [putAll_append, List.length_map, strclosew, hmem, hptr]
      rfl

/-- No argument is other than zero. -/
def zeroArgs : Args := ⟨fun _ => 0, fun _ => 0⟩

theorem zeroArgs_hasNul : zeroArgs.HasNul := ⟨0, by decide, rfl⟩

def INT_MAX_numeral : Numeral :=
  ⟨⟨['2', '1', '4', '7', '4', '8', '3', '6', '4', '7'], List.all_eq_true.mp rfl⟩, '2', _, rfl,
    by decide⟩

/-- A directive for an `int` in a field of the largest width. -/
def widest : Spec Unit := ⟨(), [], .literal INT_MAX_numeral, .none, .none, .d⟩

theorem conversion_zero (width : ℤ) : conversion zeroArgs ⟨{}, width, {}⟩ 'd' =
    some (pforw {} width (-1) none ['0'], { argp := 1 }) := by
  have hfigures : Doprnt.figures {} false 10 0 = ['0'] := by decide
  have hfield : signedField {} width 'd' (zeroArgs.wide 0) =
      pforw {} width (-1) none (Doprnt.figures {} false 10 0) := rfl
  have hprint : field zeroArgs {} width 'd' 0 =
      some (signedField {} width 'd' (zeroArgs.wide 0), 1) := rfl
  unfold conversion Lists.place
  rw [if_neg (by decide), if_neg (by decide), if_pos (by decide), ← hfigures, ← hfield]
  dsimp only
  rw [if_neg (by decide)]
  dsimp only
  rw [hprint]
  rfl

theorem length_pforw_zero (width : ℤ) (h : 1 ≤ width) :
    (pforw {} width (-1) none ['0']).1.length = width := by
  have hpad := padding_length false false width (show (0 : ℤ) ≤ 1 by decide)
  have hreal : realSize none none (-1) 1 = 1 := by decide
  unfold pforw
  simp only [List.length_append, List.length_replicate, hexPrefix, Option.toList,
    List.length_cons, List.length_nil, Nat.zero_add, Nat.cast_one, hreal] at hpad ⊢
  omega

end DjgppLibc.DoprntLoop
