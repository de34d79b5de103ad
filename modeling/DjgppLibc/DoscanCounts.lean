import DjgppLibc.DoscanLow

/-!
# The count of `_doscan_low`

Each part reads characters, counts them, and puts one back and takes it off the count
again. EOF is counted in some places and not in others, but what is counted too much
is always taken off, except where the first character of a number is EOF; there the
directive fails.
-/
namespace DjgppLibc.Doscan

variable {type c : Char} {sctab : Table} {heap : ℕ → ℕ} {k : Kind}
  {text text₁ text₂ : List Char} {n n₁ n₂ : ℤ}

/-- From one state to another, the characters in between have been read and counted. -/
def Counted (text : List Char) (n : ℤ) (text₁ : List Char) (n₁ : ℤ) : Prop :=
  ∃ p, text = p ++ text₁ ∧ n₁ = n + p.length

theorem Counted.refl (text : List Char) (n : ℤ) : Counted text n text n := ⟨[], rfl, by simp⟩

theorem Counted.trans (h : Counted text n text₁ n₁) (h₁ : Counted text₁ n₁ text₂ n₂) :
    Counted text n text₂ n₂ := by
  obtain ⟨p, htext, hn⟩ := h
  obtain ⟨q, htext₁, hn₁⟩ := h₁
  refine ⟨p ++ q, ?_, ?_⟩
  · rw [htext, htext₁, List.append_assoc]
  · rw [hn₁, hn, List.length_append]
    push_cast
    omega

/-- A character that is read. -/
theorem Counted.next (c : Char) (text : List Char) (n : ℤ) : Counted (c :: text) n text (n + 1) :=
  ⟨[c], rfl, by simp⟩

variable {s s' : Scan}

theorem put_keeps (h : s.put = .ok s') : s'.text = s.text ∧ s'.nchars = s.nchars := by
  unfold Scan.put at h
  split_ifs at h
  cases h
  exact ⟨rfl, rfl⟩

theorem getc_counts (h : s.text ≠ []) : Counted s.text s.nchars s.getc.text s.getc.nchars := by
  obtain ⟨c, rest, htext⟩ := List.exists_cons_of_ne_nil h
  unfold Scan.getc
  dsimp only
  rw [htext]
  exact Counted.next c rest s.nchars

theorem body_counts {go : Bool} (h : body type s = .ok (go, s')) :
    Counted s.text s.nchars s'.text s'.nchars ∧ (go = true → s'.text ≠ []) := by
  unfold body at h
  dsimp only at h
  cases htext : s.text with
  | nil =>
      rw [htext] at h
      cases h
      rw [← htext]
      exact ⟨Counted.refl _ _, nofun⟩
  | cons c rest =>
      rw [htext] at h
      dsimp only at h
      obtain ⟨q, hq⟩ : ∃ q : Scan, q = if c = '0' ∧ s.cpos + 1 = 1 ∧ type = 'i' then
          { s with cpos := s.cpos + 1, base := 8, text := c :: rest }
        else { s with cpos := s.cpos + 1, text := c :: rest } := ⟨_, rfl⟩
      have hqtext : q.text = c :: rest := by
        rw [hq]
        split_ifs <;> rfl
      have hqn : q.nchars = s.nchars := by
        rw [hq]
        split_ifs <;> rfl
      have hstays : Counted (c :: rest) s.nchars q.text q.nchars := by
        rw [hqtext, hqn]
        exact Counted.refl _ _
      have hne : q.text ≠ [] := by
        rw [hqtext]
        exact List.cons_ne_nil _ _
      rw [← hq] at h
      split_ifs at h
      · cases h
        exact ⟨hstays, fun _ => hne⟩
      · cases h
        exact ⟨hstays, fun _ => hne⟩
      · cases h
        exact ⟨hstays, nofun⟩
      · cases h
        exact ⟨hstays, fun _ => hne⟩
      · cases h
        exact ⟨hstays, nofun⟩
      · -- the letter of the exponent
        cases hput : ({ q with expseen := true } : Scan).put with
        | error e =>
            rw [hput] at h
            cases h
        | ok q₁ =>
            rw [hput] at h
            cases h
            obtain ⟨htext₁, hn₁⟩ := put_keeps hput
            have hread := getc_counts (s := q₁) (by rw [htext₁]; exact hne)
            rw [htext₁, hn₁] at hread
            refine ⟨hstays.trans hread, fun hgo hnil => ?_⟩
            rw [hnil] at hgo
            cases hgo
      · cases h
        exact ⟨hstays, nofun⟩

theorem loop_counts {len : ℕ} (h : loop type len s = .ok s') :
    Counted s.text s.nchars s'.text s'.nchars := by
  induction len generalizing s with
  | zero =>
      cases h
      exact Counted.refl _ _
  | succ len ih =>
      rw [loop] at h
      cases hbody : body type s with
      | error e =>
          rw [hbody] at h
          cases h
      | ok r =>
          obtain ⟨go, q⟩ := r
          obtain ⟨hcounts, hne⟩ := body_counts hbody
          rw [hbody] at h
          cases go with
          | false =>
              cases h
              exact hcounts
          | true =>
              dsimp only at h
              cases hput : q.put with
              | error e =>
                  rw [hput] at h
                  cases h
              | ok q₁ =>
                  rw [hput] at h
                  obtain ⟨htext₁, hn₁⟩ := put_keeps hput
                  have hread := getc_counts (s := q₁) (by rw [htext₁]; exact hne rfl)
                  rw [htext₁, hn₁] at hread
                  exact hcounts.trans (hread.trans (ih h))

theorem loop_nil {len : ℕ} (htext : s.text = []) (h : loop type len s = .ok s') :
    s'.numbuf = s.numbuf := by
  cases len with
  | zero =>
      cases h
      rfl
  | succ len =>
      rw [loop, body] at h
      dsimp only at h
      rw [htext] at h
      cases h
      rfl

theorem takeSign_counts (len : ℕ) (h : s.text ≠ []) :
    Counted s.text s.nchars (takeSign len s).2.2.text (takeSign len s).2.2.nchars := by
  unfold takeSign
  split_ifs
  · exact getc_counts h
  · exact getc_counts h
  · exact Counted.refl _ _

theorem finish_counts {size : Size} {negflg ptr : Bool} {r : Scanned}
    (h : (if ptr then finish type size negflg s else .ok (finishSuppressed negflg s)) = .ok r) :
    r.text = s.text ∧ r.nchars = s.nchars - 1 ∧
      (r.matched = true → ¬ (s.numbuf = [] ∨ negflg = true ∧ s.numbuf.length = 1)) := by
  split_ifs at h
  · unfold finish at h
    dsimp only at h
    split_ifs at h with hnone
    · cases h
      exact ⟨rfl, rfl, nofun⟩
    all_goals
      cases h
      exact ⟨rfl, rfl, fun _ => hnone⟩
  · cases h
    exact ⟨rfl, rfl, fun hm => of_decide_eq_true hm⟩

theorem innumLow_counts {len : ℤ} {size : Size} {ptr : Bool} {r : Scanned}
    (h : innumLow sctab type len size ptr text = .ok r) (hm : r.matched = true) :
    Counted text 0 r.text r.nchars := by
  have happend := List.takeWhile_append_dropWhile (p := sctab.has SPC) (l := text)
  unfold innumLow at h
  generalize text.takeWhile (sctab.has SPC) = b at h happend
  generalize text.dropWhile (sctab.has SPC) = rest at h happend
  dsimp only at h
  by_cases hrest : rest = []
  · -- there is no number at the end of the file
    subst hrest
    cases hloop : loop type len.toNat
        ⟨startBase type, 0, 0, false, 0, [], (b.length : ℤ) + 0, []⟩ with
    | error e =>
        rw [if_pos rfl, takeSign, if_neg nofun, if_neg nofun] at h
        dsimp only at h
        rw [hloop] at h
        cases h
    | ok s =>
        rw [if_pos rfl, takeSign, if_neg nofun, if_neg nofun] at h
        dsimp only at h
        rw [hloop] at h
        exact absurd (Or.inl (loop_nil rfl hloop)) ((finish_counts h).2.2 hm)
  · rw [if_neg hrest] at h
    have hsign := takeSign_counts (s := ⟨startBase type, 0, 0, false, 0, [], b.length + 1, rest⟩)
      len.toNat hrest
    generalize takeSign len.toNat ⟨startBase type, 0, 0, false, 0, [], b.length + 1, rest⟩ = t
      at h hsign
    obtain ⟨negflg, len, s⟩ := t
    dsimp only at h hsign
    cases hloop : loop type len s with
    | error e =>
        rw [hloop] at h
        cases h
    | ok s' =>
        rw [hloop] at h
        obtain ⟨htext, hn, -⟩ := finish_counts h
        obtain ⟨p, hp, hpn⟩ := hsign.trans (loop_counts hloop)
        refine ⟨b ++ p, ?_, ?_⟩
        · rw [htext, List.append_assoc, ← hp, happend]
        · rw [hn, hpn, List.length_append]
          push_cast
          omega

/-- The loop has read a line that starts at the character it was called with; what it ends with is
not put back yet. -/
def Copied.Counts (line : List Char) (n : ℤ) : Copied → Prop
  | .done ch rest s => Counted line n (ch.toList ++ rest) (s.nchars - 1)
  | .failed rest s => Counted line n rest s.nchars

variable {q q' : Copy}

theorem store_nchars (h : store k c q = .ok q') : q'.nchars = q.nchars := by
  unfold store at h
  split_ifs at h <;> cases h <;> rfl

theorem grow_nchars (h : grow heap q = some q') : q'.nchars = q.nchars := by
  unfold grow at h
  split_ifs at h <;> cases h <;> rfl

theorem Copied.Counts.cons {r : Copied} (c : Char) (h : r.Counts text (n + 1)) :
    r.Counts (c :: text) n := by
  cases r with
  | done ch rest s => exact (Counted.next c text n).trans h
  | failed rest s => exact (Counted.next c text n).trans h

/-- What is left of the loop behind a store. -/
theorem copy_stored {r : Copied} (hhas : ¬ sctab.has k.ignstp c = true)
    (h : copy sctab heap k c text q = .ok r) :
    ∃ q₁, q₁.nchars = q.nchars ∧
      (r = .failed text q₁ ∨ r = .done (some c) text q₁ ∨
        text = [] ∧ r = .done none [] { q₁ with nchars := q₁.nchars + 1 } ∨
        ∃ d rest, text = d :: rest ∧
          copy sctab heap k d rest { q₁ with nchars := q₁.nchars + 1 } = .ok r) := by
  unfold copy at h
  rw [if_neg hhas] at h
  cases hstore : store k c q with
  | error e =>
      rw [hstore] at h
      cases h
  | ok q₁ =>
      have hn₁ := store_nchars hstore
      rw [hstore] at h
      dsimp only at h
      by_cases hgrows : (k.allocate && k.type ≠ 'c') = true
      · rw [if_pos hgrows] at h
        cases hgrow : grow heap q₁ with
        | none =>
            rw [hgrow] at h
            cases h
            exact ⟨q₁, hn₁, .inl rfl⟩
        | some q₂ =>
            refine ⟨q₂, (grow_nchars hgrow).trans hn₁, ?_⟩
            rw [hgrow] at h
            cases text with
            | nil =>
                cases h
                exact .inr (.inr (.inl ⟨rfl, rfl⟩))
            | cons d rest => exact .inr (.inr (.inr ⟨d, rest, rfl, h⟩))
      · rw [if_neg hgrows] at h
        refine ⟨{ q₁ with len := q₁.len - 1 }, hn₁, ?_⟩
        by_cases hlen : q₁.len - 1 < 1
        · rw [if_pos hlen] at h
          cases h
          exact .inr (.inl rfl)
        · rw [if_neg hlen] at h
          cases text with
          | nil =>
              cases h
              exact .inr (.inr (.inl ⟨rfl, rfl⟩))
          | cons d rest => exact .inr (.inr (.inr ⟨d, rest, rfl, h⟩))

theorem copy_counts {c : Char} {text : List Char} {q : Copy} {r : Copied}
    (h : copy sctab heap k c text q = .ok r) :
    r.Counts (c :: text) (q.nchars - 1) := by
  by_cases hhas : sctab.has k.ignstp c = true
  · unfold copy at h
    rw [if_pos hhas] at h
    cases h
    exact Counted.refl _ _
  · have hnext := Counted.next c text (q.nchars - 1)
    have hone : q.nchars - 1 + 1 = q.nchars := by omega
    obtain ⟨q₁, hn, rfl | rfl | ⟨rfl, rfl⟩ | ⟨d, rest, rfl, hgo⟩⟩ := copy_stored hhas h
    · rw [← hn] at hone hnext ⊢
      rwa [hone] at hnext
    · rw [← hn]
      exact Counted.refl _ _
    · rw [hone, ← hn] at hnext
      rw [← hn]
      have hsame : q₁.nchars = q₁.nchars + 1 - 1 := by omega
      unfold Copied.Counts
      dsimp only
      rw [← hsame]
      exact hnext
    · have hrest := copy_counts hgo
      refine Copied.Counts.cons c ?_
      rw [hone, ← hn]
      have hsame : q₁.nchars + 1 - 1 = q₁.nchars := by omega
      rwa [hsame] at hrest
termination_by text.length

/-- The last character is put back when there is one and the width is not used up. -/
def puts (ch : Option Char) (q : Copy) : Bool := ch ≠ none && 0 < q.len

theorem settle_reads {base : ℤ} {matched : Bool} {ch : Option Char} {r : Got}
    (h : settle heap k base matched ch text q = .ok r) :
    r.text = (if puts ch q then ch.toList ++ text else text) ∧
      r.nchars = if ch = none ∨ puts ch q then q.nchars - 1 else q.nchars := by
  unfold settle at h
  dsimp only at h
  rw [← puts] at h
  generalize (if puts ch q then ch.toList ++ text else text) = text' at h ⊢
  generalize (if ch = none ∨ puts ch q then q.nchars - 1 else q.nchars) = n' at h ⊢
  split_ifs at h <;> cases h <;> exact ⟨rfl, rfl⟩

theorem settle_counts {base : ℤ} {matched : Bool} {ch : Option Char} {r : Got}
    (h : settle heap k base matched ch text q = .ok r) :
    Counted (ch.toList ++ text) (q.nchars - 1) r.text r.nchars := by
  obtain ⟨htext, hn⟩ := settle_reads h
  rw [htext, hn]
  cases ch with
  | none =>
      rw [if_neg (by simp [puts]), if_pos (.inl rfl)]
      exact Counted.refl _ _
  | some c =>
      by_cases hputs : puts (some c) q = true
      · rw [if_pos hputs, if_pos (.inr hputs)]
        exact Counted.refl _ _
      · have hnext := Counted.next c text (q.nchars - 1)
        have hone : q.nchars - 1 + 1 = q.nchars := by omega
        rw [if_neg hputs, if_neg (by simpa using hputs)]
        rwa [hone] at hnext

theorem instr_counts {len : ℤ} {r : Got} (h : instr sctab heap k len text = .ok r) :
    Counted text 0 r.text r.nchars := by
  unfold instr at h
  dsimp only at h
  generalize (if k.type = 'c' ∧ len = defaultWidth then 1 else len) = len at h
  generalize (if k.type = 's' then SPC else 0) = skip at h
  by_cases hfail : k.allocate = true ∧ (len = 0 ∨ heap 0 = 0)
  · rw [if_pos hfail] at h
    cases h
    exact Counted.refl _ _
  · rw [if_neg hfail] at h
    have happend := List.takeWhile_append_dropWhile (p := sctab.has skip) (l := text)
    generalize text.takeWhile (sctab.has skip) = b at h happend
    generalize text.dropWhile (sctab.has skip) = line at h happend
    have hblanks : Counted text 0 line b.length := ⟨b, happend.symm, by omega⟩
    have hone : (b.length : ℤ) + 1 - 1 = b.length := by omega
    cases line with
    | nil =>
        have hsettle := settle_counts h
        rw [hone] at hsettle
        exact hblanks.trans hsettle
    | cons c rest =>
        dsimp only at h
        cases hcopy : copy sctab heap k c rest { nchars := b.length + 1, len } with
        | error e =>
            rw [hcopy] at h
            cases h
        | ok r₁ =>
            have hcounts := copy_counts hcopy
            rw [hone] at hcounts
            rw [hcopy] at h
            cases r₁ with
            | failed rest' q =>
                cases h
                exact hblanks.trans hcounts
            | done ch rest' q => exact hblanks.trans (hcounts.trans (settle_counts h))

variable {l l' : Low} {d : Directive}

theorem convert_counts {size : Size} {len : ℤ} {ptr : Bool} {r : Answer}
    (h : convert heap d size type len ptr text = .ok r) (hm : r.matched = true) :
    Counted text 0 r.text r.nchars := by
  unfold convert at h
  split_ifs at h
  · cases hinstr : instr d.sctab heap ⟨type, d.allocate, ptr⟩ len text with
    | error e =>
        rw [hinstr] at h
        cases h
    | ok q =>
        rw [hinstr] at h
        cases h
        exact instr_counts hinstr
  · cases hinnum : innumLow d.sctab type len size ptr text with
    | error e =>
        rw [hinnum] at h
        cases h
    | ok q =>
        rw [hinnum] at h
        cases h
        exact innumLow_counts hinnum hm

/-- The characters between two states have been counted modulo 2^32. -/
def Low.Follows (l l' : Low) : Prop :=
  ∃ p, l.text = p ++ l'.text ∧ l'.nchars = l.nchars + BitVec.ofNat 32 p.length

theorem Low.Follows.of_same (htext : l'.text = l.text) (hn : l'.nchars = l.nchars) : l.Follows l' :=
  ⟨[], htext.symm, hn.trans (BitVec.add_zero _).symm⟩

theorem literal_follows {b : BitVec 8} (h : literal b l = .again l') : l.Follows l' := by
  unfold literal at h
  cases htext : l.text with
  | nil =>
      rw [htext] at h
      dsimp only at h
      split_ifs at h
      cases h
      exact .of_same rfl rfl
  | cons c text =>
      rw [htext] at h
      dsimp only at h
      split_ifs at h
      cases h
      exact ⟨[c], htext, rfl⟩

theorem skipBlanks_counts (sctab : Table) (text : List Char) (n : BitVec 32) :
    ∃ p, text = p ++ ((skipBlanks sctab text n).2.1.toList ++ (skipBlanks sctab text n).2.2) ∧
      (skipBlanks sctab text n).1 = n + BitVec.ofNat 32 p.length + 1 := by
  induction text generalizing n with
  | nil => exact ⟨[], rfl, by simp [skipBlanks]⟩
  | cons c text ih =>
      rw [skipBlanks]
      split_ifs
      · obtain ⟨p, htext, hn⟩ := ih (n + 1)
        refine ⟨c :: p, by rw [List.cons_append, ← htext], ?_⟩
        rw [hn, List.length_cons, BitVec.ofNat_add, BitVec.add_assoc n, BitVec.add_comm 1]
        rfl
      · exact ⟨[], rfl, by simp⟩

theorem blank_follows (l : Low) : l.Follows (blank l) := by
  obtain ⟨p, htext, hn⟩ := skipBlanks_counts l.sctab l.text l.nchars
  refine ⟨p, ?_⟩
  unfold blank
  generalize skipBlanks l.sctab l.text l.nchars = r at htext hn
  obtain ⟨n, c, text⟩ := r
  have hback : n - 1 = l.nchars + BitVec.ofNat 32 p.length := by
    rw [show n = _ from hn]
    exact BitVec.add_sub_cancel _ _
  cases c with
  | none => exact ⟨htext, hback⟩
  | some c => exact ⟨htext, hback⟩

theorem conversion_follows {ch : Char} {fmt : List (BitVec 8)}
    (h : conversion heap ch fmt l = .ok (.again l')) : l.Follows l' := by
  unfold conversion at h
  generalize head (fmt.length + 2) ch fmt { argp := l.argp } = hd at h
  obtain ⟨hd, n, ch, fmt⟩ := hd
  dsimp only at h
  generalize modifiers l.sctab ch fmt = d at h
  generalize (if n = 0 then (defaultWidth : ℤ) else n) = len at h
  split_ifs at h with hnul hcount
  · cases h
  · cases hptr : hd.ptr with
    | none =>
        rw [hptr] at h
        cases h
        exact .of_same rfl rfl
    | some arg =>
        rw [hptr] at h
        dsimp only at h
        cases hstored : stored false (capital d.size d.type).1 (l.nchars.signExtend 64) [] with
        | none =>
            rw [hstored] at h
            cases h
            exact .of_same rfl rfl
        | some v =>
            rw [hstored] at h
            cases h
            exact .of_same rfl rfl
  · cases hconvert : convert heap d (capital d.size d.type).1 (capital d.size d.type).2 len
        hd.ptr.isSome l.text with
    | error e =>
        rw [hconvert] at h
        cases h
    | ok r =>
        rw [hconvert] at h
        dsimp only at h
        split_ifs at h with hm
        · obtain ⟨p, htext, hn⟩ := convert_counts hconvert hm
          have hcount : BitVec.ofInt 32 r.nchars = BitVec.ofNat 32 p.length := by
            rw [hn, Int.zero_add]
            exact BitVec.ofInt_natCast _ _
          cases hptr : hd.ptr with
          | none =>
              rw [hptr] at h
              cases h
              exact ⟨p, htext, by rw [← hcount]⟩
          | some arg =>
              rw [hptr] at h
              cases h
              exact ⟨p, htext, by rw [← hcount]⟩
        · cases h
        · cases h

theorem turn_follows (h : turn heap l = .ok (.again l')) : l.Follows l' := by
  unfold turn at h
  cases hfmt : l.fmt with
  | nil =>
      rw [hfmt] at h
      cases h
  | cons b fmt =>
      rw [hfmt] at h
      dsimp only at h
      split_ifs at h
      · exact literal_follows (l := { l with fmt := (advance fmt).2 }) (Except.ok.inj h)
      · exact conversion_follows (l := { l with fmt }) h
      · cases h
        exact blank_follows { l with fmt }
      · exact literal_follows (l := { l with fmt }) (Except.ok.inj h)

/-- Behind every run of turns the count is the one of the characters that are gone. -/
theorem turns_follows {heap : ℕ → ℕ → ℕ} {n : ℕ} (h : turns heap n l = some l') : l.Follows l' := by
  induction n generalizing l' with
  | zero =>
      cases h
      exact .of_same rfl rfl
  | succ n ih =>
      rw [turns] at h
      cases hturns : turns heap n l with
      | none =>
          rw [hturns] at h
          cases h
      | some l₁ =>
          rw [hturns] at h
          dsimp only at h
          split at h
          · rename_i hturn
            cases h
            obtain ⟨p, htext, hn⟩ := ih hturns
            obtain ⟨q, htext₁, hn₁⟩ := turn_follows hturn
            refine ⟨p ++ q, ?_, ?_⟩
            · rw [htext, htext₁, List.append_assoc]
            · rw [hn₁, hn, List.length_append, BitVec.ofNat_add, BitVec.add_assoc]
          · cases h

/-- The argument of the next directive when that one is a `%n`. -/
def Low.countArg (l : Low) : Option ℕ :=
  match l.fmt with
  | [] => none
  | b :: fmt =>
      let (ch, fmt) := advance fmt
      if chr b ≠ '%' ∨ ch = '%' then none
      else
        let (h, _, ch, fmt) := head (fmt.length + 2) ch fmt { argp := l.argp }
        let d := modifiers l.sctab ch fmt
        if (capital d.size d.type).2 = 'n' then h.ptr else none

/-- The value is the number, cut to the width of the type. -/
def Stored.Holds (m : ℕ) : Stored → Prop
  | .char v => v = BitVec.ofNat 8 m
  | .short v => v = BitVec.ofNat 16 m
  | .int v => v = BitVec.ofNat 32 m
  | .long v => v = BitVec.ofNat 32 m
  | .longlong v => v = BitVec.ofNat 64 m
  | _ => False

theorem stored_holds (size : Size) (m : ℕ) :
    ∃ v, stored false size (BitVec.ofNat 64 m) [] = some v ∧ v.Holds m := by
  cases size with
  | char => exact ⟨_, rfl, BitVec.setWidth_ofNat_of_le (by decide) m⟩
  | short => exact ⟨_, rfl, BitVec.setWidth_ofNat_of_le (by decide) m⟩
  | regular => exact ⟨_, rfl, BitVec.setWidth_ofNat_of_le (by decide) m⟩
  | long => exact ⟨_, rfl, BitVec.setWidth_ofNat_of_le (by decide) m⟩
  | longdouble => exact ⟨_, rfl, rfl⟩

theorem toInt_count {m : ℕ} (h : m < 2 ^ 31) : (BitVec.ofNat 32 m).toInt = m := by
  have hnat : (BitVec.ofNat 32 m).toNat = m := by
    rw [BitVec.toNat_ofNat]
    omega
  rw [BitVec.toInt_eq_toNat_of_lt (by rw [hnat]; omega), hnat]

theorem signExtend_count {m : ℕ} (h : m < 2 ^ 31) :
    (BitVec.ofNat 32 m).signExtend 64 = BitVec.ofNat 64 m := by
  rw [BitVec.signExtend, toInt_count h]
  exact BitVec.ofInt_natCast _ _

theorem turn_count {arg m : ℕ} (harg : l.countArg = some arg) (hn : l.nchars = BitVec.ofNat 32 m)
    (hm : m < 2 ^ 31) :
    ∃ l' v, turn heap l = .ok (.again l') ∧ l'.assigned = l.assigned ++ [.count arg v] ∧
      v.Holds m := by
  unfold Low.countArg at harg
  unfold turn
  cases hfmt : l.fmt with
  | nil =>
      rw [hfmt] at harg
      cases harg
  | cons b fmt =>
      rw [hfmt] at harg
      dsimp only at harg ⊢
      split_ifs at harg with hpercent htype
      rw [if_pos (not_not.mp fun h => hpercent (.inl h)), if_neg fun h => hpercent (.inr h)]
      unfold conversion
      generalize head ((advance fmt).2.length + 2) (advance fmt).1 (advance fmt).2
        { argp := l.argp } = hd at harg htype ⊢
      obtain ⟨hd, len, ch, fmt⟩ := hd
      dsimp only at harg htype ⊢
      generalize modifiers l.sctab ch fmt = d at htype ⊢
      obtain ⟨v, hv, hholds⟩ := stored_holds (capital d.size d.type).1 m
      rw [if_neg (by rw [htype]; decide), if_pos htype, harg, hn, signExtend_count hm]
      dsimp only
      rw [hv]
      exact ⟨_, v, rfl, rfl, hholds⟩

/-- As long as the count fits into an `int`, it is the number of characters that the turns so far
have consumed, and a `%n` that comes next stores that number. -/
theorem turns_count {heap : ℕ → ℕ → ℕ} {n : ℕ} {fmt : List (BitVec 8)} {input : List Char}
    (h : turns heap n (start fmt sctab input) = some l) :
    ∃ consumed, input = consumed ++ l.text ∧
      (consumed.length < 2 ^ 31 → l.nchars.toInt = consumed.length ∧
        ∀ arg, l.countArg = some arg → ∃ l' v, turn (heap n) l = .ok (.again l') ∧
          l'.assigned = l.assigned ++ [.count arg v] ∧ v.Holds consumed.length) := by
  obtain ⟨consumed, htext, hn⟩ := turns_follows h
  refine ⟨consumed, htext, fun hlen => ?_⟩
  have hcount : l.nchars = BitVec.ofNat 32 consumed.length := hn.trans (BitVec.zero_add _)
  constructor
  · rw [hcount]
    exact toInt_count hlen
  · intro arg harg
    exact turn_count harg hcount hlen

/-- The format `%d %n` on the text `12 x`: the third turn stores 3. -/
theorem turns_count_three :
    ∃ l, turns (fun _ _ => 0) 2 (start [0x25, 0x64, 0x20, 0x25, 0x6e] initialTable
        ['1', '2', ' ', 'x']) = some l ∧
      l.nchars.toInt = 3 ∧
      ∃ l' v, turn (fun _ => 0) l = .ok (.again l') ∧ l'.assigned = l.assigned ++ [.count 1 v] ∧
        v.Holds 3 := by
  obtain ⟨l, hl⟩ : ∃ l, turns (fun _ _ => 0) 2 (start [0x25, 0x64, 0x20, 0x25, 0x6e] initialTable
      ['1', '2', ' ', 'x']) = some l := Option.isSome_iff_exists.mp (by decide +kernel)
  have hrest : (turns (fun _ _ => 0) 2 (start [0x25, 0x64, 0x20, 0x25, 0x6e] initialTable
      ['1', '2', ' ', 'x'])).map (fun l => (l.text, l.countArg)) = some (['x'], some 1) := by
    decide +kernel
  rw [hl, Option.map_some, Option.some.injEq, Prod.mk.injEq] at hrest
  obtain ⟨consumed, hinput, hcount⟩ := turns_count hl
  rw [hrest.1] at hinput
  have hlen : consumed.length = 3 := by
    have hlen := congrArg List.length hinput
    simp only [List.length_cons, List.length_nil, List.length_append] at hlen
    omega
  rw [hlen] at hcount
  obtain ⟨hn, hstores⟩ := hcount (by decide)
  exact ⟨l, hl, hn, hstores 1 hrest.2⟩

theorem skipBlanks_replicate (m : ℕ) (n : BitVec 32) :
    skipBlanks initialTable (List.replicate m ' ') n = (n + BitVec.ofNat 32 m + 1, none, []) := by
  induction m generalizing n with
  | zero => simp [skipBlanks]
  | succ m ih =>
      have hblank : initialTable.has SPC ' ' = true := by decide
      rw [List.replicate_succ, skipBlanks, if_pos hblank, ih, BitVec.ofNat_add, BitVec.add_assoc n,
        BitVec.add_comm 1]
      rfl

theorem turns_blanks (m : ℕ) :
    ∃ l, turns (fun _ _ => 0) 2 (start [0x20, 0x25, 0x6e] initialTable (List.replicate m ' ')) =
        some l ∧
      l.text = [] ∧ l.nchars = BitVec.ofNat 32 m ∧
      l.assigned = [.count 0 (.int (((BitVec.ofNat 32 m).signExtend 64).setWidth 32))] := by
  have hblank : blank ⟨[0x25, 0x6e], List.replicate m ' ', 0, 0, false, false, 0, initialTable,
    []⟩ =
      ⟨[0x25, 0x6e], [], BitVec.ofNat 32 m, 0, false, false, 0, initialTable, []⟩ := by
    have hcount : (0 : BitVec 32) + BitVec.ofNat 32 m + 1 - 1 = BitVec.ofNat 32 m :=
      (BitVec.add_sub_cancel _ _).trans (BitVec.zero_add _)
    unfold blank
    dsimp only
    rw [skipBlanks_replicate]
    dsimp only
    rw [hcount]
  have hfirst : turn (fun _ => 0) (start [0x20, 0x25, 0x6e] initialTable (List.replicate m ' ')) =
      .ok (.again ⟨[0x25, 0x6e], [], BitVec.ofNat 32 m, 0, false, false, 0, initialTable, []⟩) := by
    rw [← hblank]
    rfl
  simp only [turns, hfirst]
  exact ⟨_, rfl, rfl, rfl, rfl⟩

/-- Behind 2^31 blanks the count is negative, and so is what `%n` stores. -/
theorem nchars_overflows :
    ∃ l, turns (fun _ _ => 0) 2 (start [0x20, 0x25, 0x6e] initialTable
        (List.replicate 2147483648 ' ')) = some l ∧
      l.text = [] ∧ l.nchars.toInt = -2147483648 ∧
      l.assigned = [.count 0 (.int (BitVec.ofInt 32 (-2147483648)))] := by
  obtain ⟨l, hl, htext, hn, hassigned⟩ := turns_blanks 2147483648
  exact ⟨l, hl, htext, by rw [hn]; decide, by rw [hassigned]; decide⟩

end DjgppLibc.Doscan
