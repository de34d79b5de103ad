import DjgppLibc.Djtar

/-!
# `tarread` by blocks

Where the buffers are made of whole blocks, `tarread` takes one block after the other.
Only `batch_file_processing` depends on where a buffer ends.
-/
namespace DjgppLibc.Djtar

inductive BlockEnd
  | undefined
  | eof (st : Tar)
  | next (st : Tar)

def skipBlock (st : Tar) : Tar :=
  { st with
    skipping := st.skipping - 512
    lookingForHeader := if st.skipping = 512 then true else st.lookingForHeader }

def headerBlock (env : Env) (opts : Options) (st : Tar) (b : List Byte) : BlockEnd :=
  match readHeader env opts st b with
  | .undefined => .undefined
  | .eof st => .eof st
  | .next st => .next st
  | .empty st => .next st
  | .data st => .next (if st.size = 0 then finishFile opts st 512 none else st)

def dataBlock (env : Env) (opts : Options) (st : Tar) (b : List Byte) : BlockEnd :=
  let dsize := min st.size 512
  let (st, wbuf) := prepare opts st (b.take dsize)
  match env.write st.events wbuf with
  | none =>
      let st := { st with size := st.size - dsize }.emit [.wrote wbuf]
      .next (if st.size = 0 then { finishFile opts st dsize none with skipping := 0 } else st)
  | some .ENOSPC => .eof (finishFile opts (st.emit [.failed .ENOSPC]) dsize (some .ENOSPC))
  | some .other =>
      let st := finishFile opts (st.emit [.failed .other]) dsize (some .other)
      if st.skipping ≠ 0 then .next (skipBlock st) else headerBlock env opts st b

def blockStep (env : Env) (opts : Options) (st : Tar) (b : List Byte) : BlockEnd :=
  if st.skipping ≠ 0 then .next (skipBlock st)
  else if st.lookingForHeader then headerBlock env opts st b
  else if st.size = 0 then headerBlock env opts (finishFile opts st 512 none) b
  else dataBlock env opts st b

def runBlocks (env : Env) (opts : Options) : Tar → List (List Byte) → Option (Bool × Tar)
  | st, [] => some (false, st)
  | st, b :: bs =>
      match blockStep env opts st b with
      | .undefined => none
      | .eof st => some (true, st)
      | .next st => runBlocks env opts st bs

variable {env : Env} {opts : Options} {st st' : Tar} {b : List Byte} {bs : List (List Byte)}
  {fuel : ℕ}

def Aligned (st : Tar) : Prop := 512 ∣ st.skipping

theorem aligned_of_not_skipping (h : st.skipping = 0) : Aligned st := by
  rw [Aligned, h]
  exact Nat.dvd_zero _

theorem roundUp_dvd (size : ℕ) : 512 ∣ roundUp size := Nat.dvd_mul_left _ _

/-- Only the type of the file and the events change. -/
theorem prepare_state (opts : Options) (st : Tar) (block : List Byte) :
    ∃ fileType firstBlock l, (prepare opts st block).1 =
      { st with fileType := fileType, firstBlock := firstBlock, events := st.events ++ l } := by
  unfold prepare
  split
  · exact ⟨st.fileType, st.firstBlock, [], by simp⟩
  · dsimp only
    generalize hst : (if st.firstBlock && (opts.textDos || opts.textUnix || opts.toTty) then _
      else st) = st₁
    have hst₁ : ∃ fileType firstBlock l, st₁ =
        { st with fileType := fileType, firstBlock := firstBlock, events := st.events ++ l } := by
      rw [← hst]
      split
      · exact ⟨_, _, _, rfl⟩
      · exact ⟨st.fileType, st.firstBlock, [], by simp⟩
    split
    · exact hst₁
    · exact hst₁

/-- What a header leaves to skip, and that the data begins with nothing to skip. -/
def HeaderEnd.Leaves (st : Tar) : HeaderEnd → Prop
  | .undefined | .eof _ => True
  | .next st' | .empty st' => Aligned st'
  | .data st' => st'.skipping = st.skipping ∧ st'.lookingForHeader = st.lookingForHeader

theorem openMember_leaves (h : Aligned st) (written : Bool) :
    (openMember env opts st b written).Leaves st := by
  unfold openMember
  split
  · dsimp only
    split
    · trivial
    · split
      · exact Nat.dvd_zero _
      · exact roundUp_dvd _
  · split
    · exact h
    · split
      · trivial
      · split
        · dsimp only
          split
          · exact ⟨rfl, rfl⟩
          · exact roundUp_dvd _
        · exact ⟨rfl, rfl⟩

theorem readHeader_leaves (h : Aligned st) :
    (readHeader env opts st b).Leaves { st with lookingForHeader := false } := by
  unfold readHeader
  dsimp only
  split
  · split
    · trivial
    · exact roundUp_dvd _
  · split
    · trivial
    · split
      · trivial
      · refine openMember_leaves ?_ _
        exact h

def after (env : Env) (opts : Options) (fuel : ℕ) : Outcome → Option (Bool × Tar)
  | .undefined => none
  | .ret eof st => some (eof, st)
  | .cont st buf => loop env opts fuel st buf

theorem loop_succ {buf : List Byte} (h : buf ≠ []) :
    loop env opts (fuel + 1) st buf = after env opts fuel (iteration env opts st buf) := by
  cases buf with
  | nil => exact absurd rfl h
  | cons c buf =>
    rw [loop]
    cases iteration env opts st (c :: buf) <;> rfl

theorem loop_nil : loop env opts fuel st [] = some (false, st) := by
  cases fuel <;> rfl

/-- The size of the blocks that are left. -/
theorem length_flatten_blocks (h : ∀ b ∈ bs, b.length = 512) :
    bs.flatten.length = 512 * bs.length := by
  induction bs with
  | nil => rfl
  | cons b bs ih =>
    rw [List.flatten_cons, List.length_append, h b List.mem_cons_self,
      ih fun b hb => h b (List.mem_cons_of_mem _ hb),
      List.length_cons]
    omega

theorem iteration_of_not_skipping (st : Tar) (buf : List Byte) (h : st.skipping = 0) :
    iteration env opts st buf =
      if st.lookingForHeader then afterHeader env opts (buf.drop 512)
      (readHeader env opts st (buf.take 512))
      else dataPart env opts st buf := by
  unfold iteration
  rw [h]
  simp only [Nat.not_lt_zero, if_false, ne_eq, not_true_eq_false, decide_false, Bool.false_eq_true,
    List.drop_zero,
    false_and]

theorem block_ne_nil (hb : b.length = 512) : b ≠ [] := by
  rintro rfl
  cases hb

theorem loop_skip {pre : List Byte} (hbs : ∀ b ∈ bs, b.length = 512)
    (hpre : pre.length = st.skipping)
    (h0 : st.skipping ≠ 0) :
    loop env opts (fuel + 1) st (pre ++ bs.flatten) =
      loop env opts (fuel + 1) { st with skipping := 0, lookingForHeader := true } bs.flatten := by
  have hlen := length_flatten_blocks hbs
  have hne : pre ++ bs.flatten ≠ [] := by
    intro hnil
    rw [(List.append_eq_nil_iff.1 hnil).1] at hpre
    exact h0 hpre.symm
  have hdrop : (pre ++ bs.flatten).drop st.skipping = bs.flatten := by rw [← hpre, List.drop_left]
  have hturn : iteration env opts st (pre ++ bs.flatten) =
      if bs.flatten.length < 512 then .ret false { st with skipping := 0, lookingForHeader := true }
      else iteration env opts { st with skipping := 0, lookingForHeader := true } bs.flatten := by
    rw [iteration_of_not_skipping { st with skipping := 0, lookingForHeader := true } _ rfl]
    unfold iteration
    rw [if_neg (by rw [List.length_append]; omega), hdrop]
    simp only [ne_eq, h0, not_false_eq_true, decide_true, if_true, true_and]
  rw [loop_succ hne, hturn]
  cases bs with
  | nil => rfl
  | cons b bs =>
    have hb := block_ne_nil (hbs b List.mem_cons_self)
    rw [if_neg (by rw [hlen, List.length_cons]; omega), loop_succ (by simp [hb])]

theorem loop_skipBlock (hb : b.length = 512) (hbs : ∀ b ∈ bs, b.length = 512) (h : Aligned st)
    (h0 : st.skipping ≠ 0) :
    loop env opts (fuel + 1) st (b ++ bs.flatten) = loop env opts (fuel + 1)
    (skipBlock st) bs.flatten := by
  obtain ⟨k, hk⟩ := h
  by_cases hone : st.skipping = 512
  · rw [loop_skip hbs (hb.trans hone.symm) h0]
    simp [skipBlock, hone]
  · have hlen := length_flatten_blocks hbs
    have hne := List.append_ne_nil_of_left_ne_nil (block_ne_nil hb) bs.flatten
    have hskip : (skipBlock st).skipping = st.skipping - 512 := rfl
    rw [loop_succ hne]
    cases bs with
    | nil =>
      rw [iteration, if_pos (by simp; omega), List.flatten_nil, loop_nil]
      simp [after, skipBlock, hone, hb]
    | cons b' bs =>
      have hb' : b' ≠ [] := by
        rintro rfl
        exact absurd (hbs [] List.mem_cons_self) (by decide)
      rw [loop_succ (by simp [hb'])]
      refine congrArg (after env opts fuel) ?_
      unfold iteration
      rw [hskip, List.length_append, hb]
      by_cases hlt : (b' :: bs).flatten.length < st.skipping - 512
      · rw [if_pos hlt, if_pos (by omega)]
        have hleft : st.skipping - (512 + (b' :: bs).flatten.length) =
            st.skipping - 512 - (b' :: bs).flatten.length := by omega
        simp only [skipBlock, hone, if_false, hleft]
      · have hdrop : (b ++ (b' :: bs).flatten).drop st.skipping =
            (b' :: bs).flatten.drop (st.skipping - 512) := by
          rw [List.drop_append, hb, List.drop_of_length_le (by omega), List.nil_append]
        have hne' : st.skipping - 512 ≠ 0 := by omega
        rw [if_neg hlt, if_neg (by omega), hdrop]
        simp only [ne_eq, h0, hne', not_false_eq_true, decide_true, if_true, skipBlock]

theorem prepare_size (opts : Options) (st : Tar) (block : List Byte) :
    (prepare opts st block).1.size = st.size ∧ (prepare opts st block).1.skipping =
    st.skipping := by
  obtain ⟨fileType, firstBlock, l, h⟩ := prepare_state opts st block
  rw [h]
  exact ⟨rfl, rfl⟩

theorem dataLoop_fuel {buf : List Byte} {dsize n n' : ℕ} (h : st.size ≤ n) (h' : st.size ≤ n') :
    dataLoop env opts n st buf dsize = dataLoop env opts n' st buf dsize := by
  induction n generalizing st buf dsize n' with
  | zero =>
    have h0 : st.size = 0 := by omega
    cases n' with
    | zero => rfl
    | succ n' => rw [dataLoop, dataLoop, if_pos h0]
  | succ n ih =>
    cases n' with
    | zero =>
      have h0 : st.size = 0 := by omega
      rw [dataLoop, dataLoop, if_pos h0]
    | succ n' =>
      by_cases h0 : st.size = 0
      · rw [dataLoop, dataLoop, if_pos h0, if_pos h0]
      · by_cases hbuf : buf = []
        · rw [dataLoop, dataLoop, if_neg h0, if_neg h0, if_pos hbuf, if_pos hbuf]
        · have hpos : 0 < buf.length := List.length_pos_iff.2 hbuf
          rw [dataLoop, dataLoop, if_neg h0, if_neg h0, if_neg hbuf, if_neg hbuf]
          dsimp only
          generalize hd : (if st.size < 512 then st.size else min buf.length 512) = d
          have hd0 : 1 ≤ d := by
            rw [← hd]
            split <;> omega
          have hsize := (prepare_size opts st (buf.take d)).1
          split
          · rfl
          · refine ih ?_ ?_
            · show (prepare opts st (buf.take d)).1.size - d ≤ n
              omega
            · show (prepare opts st (buf.take d)).1.size - d ≤ n'
              omega

theorem dataLoop_block {rest : List Byte} {dsize : ℕ} (hb : b.length = 512) (h0 : st.size ≠ 0) :
    dataLoop env opts st.size st (b ++ rest) dsize =
      match env.write (prepare opts st (b.take (min st.size 512))).1.events
          (prepare opts st (b.take (min st.size 512))).2 with
      | some errno => .ended ((prepare opts st (b.take (min st.size 512))).1.emit
        [.failed errno]) (b ++ rest)
          (min st.size 512) (some errno)
      | none => dataLoop env opts (st.size - min st.size 512)
          ({ (prepare opts st (b.take (min st.size 512))).1 with size := st.size - min st.size 512 }.emit
            [.wrote (prepare opts st (b.take (min st.size 512))).2])
          ((b ++ rest).drop (min st.size 512)) (min st.size 512) := by
  have hne : b ++ rest ≠ [] := by
    intro hnil
    rw [(List.append_eq_nil_iff.1 hnil).1] at hb
    cases hb
  have hd : (if st.size < 512 then st.size else min (b ++ rest).length 512) = min st.size 512 := by
    rw [List.length_append]
    split <;> omega
  have htake : (b ++ rest).take (min st.size 512) = b.take (min st.size 512) := by
    rw [List.take_append_of_le_length (by omega)]
  have hsize := (prepare_size opts st (b.take (min st.size 512))).1
  obtain ⟨n, hn⟩ := Nat.exists_eq_succ_of_ne_zero h0
  rw [show dataLoop env opts st.size st (b ++ rest) dsize = dataLoop env opts (n + 1) st
    (b ++ rest) dsize from
    dataLoop_fuel (Nat.le_refl _) (by omega), dataLoop, if_neg h0, if_neg hne]
  dsimp only
  rw [hd, htake, hsize]
  cases env.write (prepare opts st (b.take (min st.size 512))).1.events
      (prepare opts st (b.take (min st.size 512))).2 with
  | some errno => rfl
  | none =>
      refine dataLoop_fuel ?_ ?_
      · show st.size - min st.size 512 ≤ n
        omega
      · exact Nat.le_refl _

theorem after_dataPart (hbs : ∀ b ∈ bs, b.length = 512)
    (ih : ∀ st fuel, Aligned st → 2 * bs.length + 1 ≤ fuel →
      loop env opts fuel st bs.flatten = runBlocks env opts st bs)
    (hfuel : 2 * bs.length + 1 ≤ fuel) (hskip : st.skipping = 0)
    (hlook : st.lookingForHeader = false) :
    after env opts fuel (dataPart env opts st bs.flatten) =
      runBlocks env opts (if st.size = 0 then finishFile opts st 512 none else st) bs := by
  by_cases h0 : st.size = 0
  · have hpart : dataPart env opts st bs.flatten =
        .cont (finishFile opts st 512 none) bs.flatten := by
      rw [dataPart, h0]
      rfl
    rw [hpart, if_pos h0]
    refine ih _ _ ?_ hfuel
    exact Nat.dvd_zero _
  · rw [if_neg h0]
    cases bs with
    | nil =>
      obtain ⟨n, hn⟩ := Nat.exists_eq_succ_of_ne_zero h0
      have hpart : dataPart env opts st [] = .ret false st := by
        rw [dataPart, hn, dataLoop, if_neg h0, if_pos rfl]
      rw [List.flatten_nil, hpart]
      rfl
    | cons b bs =>
      have hb := block_ne_nil (hbs b List.mem_cons_self)
      have hne : (b :: bs).flatten ≠ [] := by simp [hb]
      have hturn : after env opts fuel (dataPart env opts st (b :: bs).flatten) =
          loop env opts (fuel + 1) st (b :: bs).flatten := by
        rw [loop_succ hne, iteration_of_not_skipping _ _ hskip, hlook]
        rfl
      rw [hturn]
      exact ih _ _ (aligned_of_not_skipping hskip) (by omega)

/-- What follows a block. -/
def afterBlock (env : Env) (opts : Options) (bs : List (List Byte)) : BlockEnd → Option (Bool × Tar)
  | .undefined => none
  | .eof st => some (true, st)
  | .next st => runBlocks env opts st bs

theorem runBlocks_cons (st : Tar) (b : List Byte) (bs : List (List Byte)) :
    runBlocks env opts st (b :: bs) = afterBlock env opts bs (blockStep env opts st b) := by
  rw [runBlocks]
  cases blockStep env opts st b <;> rfl

/-- A turn with a header. -/
theorem loop_header (hb : b.length = 512) (hbs : ∀ b ∈ bs, b.length = 512)
    (ih : ∀ st fuel, Aligned st → 2 * bs.length + 1 ≤ fuel →
      loop env opts fuel st bs.flatten = runBlocks env opts st bs)
    (hfuel : 2 * bs.length + 1 ≤ fuel) (hskip : st.skipping = 0)
    (hlook : st.lookingForHeader = true) :
    loop env opts (fuel + 1) st (b ++ bs.flatten) = afterBlock env opts bs
    (headerBlock env opts st b) := by
  have hne := List.append_ne_nil_of_left_ne_nil (block_ne_nil hb) bs.flatten
  have hleaves : (readHeader env opts st b).Leaves { st with lookingForHeader := false } :=
    readHeader_leaves (aligned_of_not_skipping hskip)
  rw [loop_succ hne, iteration_of_not_skipping _ _ hskip, if_pos hlook, ← hb, List.drop_left,
    List.take_left,
    headerBlock]
  cases hread : readHeader env opts st b with
  | undefined => rfl
  | eof st' => rfl
  | next st' =>
    rw [hread] at hleaves
    exact ih _ _ hleaves hfuel
  | empty st' =>
    rw [hread] at hleaves
    have hlen := length_flatten_blocks hbs
    rw [afterHeader]
    split
    · have hnil : bs = [] := by
        rw [← List.length_eq_zero_iff]
        omega
      subst hnil
      rfl
    · exact ih _ _ hleaves hfuel
  | data st' =>
    rw [hread] at hleaves
    exact after_dataPart hbs ih hfuel (hleaves.1.trans hskip) hleaves.2

/-- `dataPart` behind its loop. -/
def afterData (opts : Options) : DataEnd → Outcome
  | .exhausted st => .ret false st
  | .ended st buf dsize errno =>
      if errno = some .ENOSPC then .ret true (finishFile opts st dsize errno)
      else .cont (finishFile opts st dsize errno) buf

/-- A turn that takes a block of a file. -/
theorem loop_data (hb : b.length = 512) (hbs : ∀ b ∈ bs, b.length = 512)
    (ih : ∀ st fuel, Aligned st → 2 * bs.length + 1 ≤ fuel →
      loop env opts fuel st bs.flatten = runBlocks env opts st bs)
    (hfuel : 2 * bs.length + 2 ≤ fuel) (hskip : st.skipping = 0)
    (hlook : st.lookingForHeader = false)
    (h0 : st.size ≠ 0) :
    loop env opts (fuel + 1) st (b ++ bs.flatten) = afterBlock env opts bs
    (dataBlock env opts st b) := by
  have hne := List.append_ne_nil_of_left_ne_nil (block_ne_nil hb) bs.flatten
  obtain ⟨n, rfl⟩ : ∃ n, fuel = n + 1 := ⟨fuel - 1, by omega⟩
  rw [loop_succ hne, iteration_of_not_skipping _ _ hskip, hlook, if_neg Bool.false_ne_true,
    dataPart,
    dataLoop_block hb h0, dataBlock]
  obtain ⟨fileType, firstBlock, l, hst₁⟩ := prepare_state opts st (b.take (min st.size 512))
  generalize prepare opts st (b.take (min st.size 512)) = prepared at hst₁
  obtain ⟨st₁, wbuf⟩ := prepared
  simp only at hst₁ ⊢
  have hskip₁ : st₁.skipping = 0 := by rw [hst₁]; exact hskip
  have hsize₁ : st₁.size = st.size := by rw [hst₁]
  have hlook₁ : st₁.lookingForHeader = false := by rw [hst₁]; exact hlook
  cases hwrite : env.write st₁.events wbuf with
  | some errno =>
    cases errno with
    | ENOSPC => rfl
    | other =>
      let st₂ := finishFile opts (st₁.emit [.failed .other]) (min st.size 512) (some .other)
      show loop env opts (n + 1) st₂ (b ++ bs.flatten) = afterBlock env opts bs
        (if st₂.skipping ≠ 0 then .next (skipBlock st₂) else headerBlock env opts st₂ b)
      have haligned : Aligned st₂ := roundUp_dvd _
      by_cases hz : st₂.skipping = 0
      · rw [if_neg (not_not.2 hz)]
        exact loop_header hb hbs ih (by omega) hz rfl
      · rw [if_pos hz, loop_skipBlock hb hbs haligned hz]
        refine ih _ _ ?_ (by omega)
        exact Nat.dvd_sub haligned (Nat.dvd_refl _)
  | none =>
    simp only
    let st₂ : Tar := { st₁ with size := st.size - min st.size 512 }.emit [.wrote wbuf]
    have hst₂ : { st₁ with size := st₁.size - min st.size 512 }.emit [.wrote wbuf] = st₂ := by
      rw [hsize₁]
    rw [hst₂]
    show after env opts (n + 1) (afterData opts (dataLoop env opts st₂.size st₂
      ((b ++ bs.flatten).drop (min st.size 512)) (min st.size 512))) = runBlocks env opts
      (if st₂.size = 0 then { finishFile opts st₂ (min st.size 512) none with skipping := 0 }
        else st₂) bs
    by_cases hfull : 512 ≤ st.size
    · have hmin : min st.size 512 = 512 := by omega
      rw [hmin, ← hb, List.drop_left, hb]
      refine Eq.trans (after_dataPart hbs ih (by omega) hskip₁ hlook₁) ?_
      rfl
    · have hmin : min st.size 512 = st.size := by omega
      have hz : st₂.size = 0 := by
        show st.size - min st.size 512 = 0
        omega
      rw [if_pos hz, hz, hmin, List.drop_append_of_le_length (by omega)]
      show loop env opts (n + 1) (finishFile opts st₂ st.size none) (b.drop st.size ++ bs.flatten) =
        _
      have hpre : (b.drop st.size).length = (finishFile opts st₂ st.size none).skipping := by
        rw [List.length_drop, hb]
        rfl
      have hne' : (finishFile opts st₂ st.size none).skipping ≠ 0 := by
        show 512 - st.size ≠ 0
        omega
      rw [loop_skip hbs hpre hne']
      exact ih _ _ (Nat.dvd_zero _) (by omega)

theorem loop_eq_runBlocks (hbs : ∀ b ∈ bs, b.length = 512) (h : Aligned st)
    (hfuel : 2 * bs.length + 1 ≤ fuel) :
    loop env opts fuel st bs.flatten = runBlocks env opts st bs := by
  induction bs generalizing st fuel with
  | nil => rw [List.flatten_nil, loop_nil, runBlocks]
  | cons b bs ih =>
    have hb := hbs b List.mem_cons_self
    have hbs' : ∀ b ∈ bs, b.length = 512 := fun b hb => hbs b (List.mem_cons_of_mem _ hb)
    have ih' (st : Tar) (fuel : ℕ) (h : Aligned st) (hf : 2 * bs.length + 1 ≤ fuel) :
        loop env opts fuel st bs.flatten = runBlocks env opts st bs := ih hbs' h hf
    rw [List.length_cons] at hfuel
    obtain ⟨n, rfl⟩ : ∃ n, fuel = n + 1 := ⟨fuel - 1, by omega⟩
    rw [runBlocks_cons, List.flatten_cons, blockStep]
    by_cases hskip : st.skipping = 0
    · rw [if_neg (not_not.2 hskip)]
      cases hlook : st.lookingForHeader with
      | true => exact loop_header hb hbs' ih' (by omega) hskip hlook
      | false =>
        by_cases h0 : st.size = 0
        · -- the turn that only finishes the file
          rw [if_neg Bool.false_ne_true, if_pos h0]
          have hne := List.append_ne_nil_of_left_ne_nil (block_ne_nil hb) bs.flatten
          have hpart : dataPart env opts st (b ++ bs.flatten) =
              .cont (finishFile opts st 512 none) (b ++ bs.flatten) := by
            rw [dataPart, h0]
            rfl
          obtain ⟨n', rfl⟩ : ∃ n', n = n' + 1 := ⟨n - 1, by omega⟩
          rw [loop_succ hne, iteration_of_not_skipping _ _ hskip, hlook, if_neg Bool.false_ne_true,
            hpart]
          exact loop_header hb hbs' ih' (by omega) rfl rfl
        · rw [if_neg Bool.false_ne_true, if_neg h0]
          exact loop_data hb hbs' ih' (by omega) hskip hlook h0
    · rw [if_pos hskip, loop_skipBlock hb hbs' h hskip]
      exact ih' _ _ (Nat.dvd_sub h (Nat.dvd_refl _)) (by omega)

/-- A buffer of whole blocks. -/
def Whole (buf : List Byte) : Prop := 0 < buf.length ∧ 512 ∣ buf.length

theorem exists_blocks {buf : List Byte} (h : 512 ∣ buf.length) :
    ∃ bs : List (List Byte), (∀ b ∈ bs, b.length = 512) ∧ buf = bs.flatten := by
  obtain ⟨k, hk⟩ := h
  induction k generalizing buf with
  | zero => exact ⟨[], by simp, List.eq_nil_of_length_eq_zero hk⟩
  | succ k ih =>
    have hlen : (buf.drop 512).length = 512 * k := by
      rw [List.length_drop]
      omega
    obtain ⟨bs, hbs, hdrop⟩ := ih hlen
    refine ⟨buf.take 512 :: bs, fun b hb => ?_, by rw [List.flatten_cons, ← hdrop,
      List.take_append_drop]⟩
    obtain rfl | hb := List.mem_cons.1 hb
    · rw [List.length_take]
      omega
    · exact hbs b hb

theorem dvd_length_flatten {bufs : List (List Byte)} (h : ∀ buf ∈ bufs, Whole buf) :
    512 ∣ bufs.flatten.length := by
  induction bufs with
  | nil => exact Nat.dvd_zero _
  | cons buf bufs ih =>
    rw [List.flatten_cons, List.length_append]
    exact Nat.dvd_add (h buf List.mem_cons_self).2 (ih fun buf hb =>
      h buf (List.mem_cons_of_mem _ hb))

theorem blocks_unique {bs bs' : List (List Byte)} (h : ∀ b ∈ bs, b.length = 512)
    (h' : ∀ b ∈ bs', b.length = 512)
    (he : bs.flatten = bs'.flatten) : bs = bs' := by
  induction bs generalizing bs' with
  | nil =>
    have hlen := length_flatten_blocks h'
    rw [← he] at hlen
    rw [eq_comm, ← List.length_eq_zero_iff]
    simpa using hlen.symm
  | cons b bs ih =>
    have hlen := length_flatten_blocks h
    have hlen' := length_flatten_blocks h'
    cases bs' with
    | nil =>
      rw [he, List.length_cons] at hlen
      simp at hlen
    | cons b' bs' =>
      have hhead : b.length = b'.length := (h b List.mem_cons_self).trans
        (h' b' List.mem_cons_self).symm
      obtain ⟨rfl, htail⟩ := List.append_inj he hhead
      rw [ih (fun b hb => h b (List.mem_cons_of_mem _ hb)) (fun b hb =>
        h' b (List.mem_cons_of_mem _ hb)) htail]

theorem tarread_eq (hbs : ∀ b ∈ bs, b.length = 512) (h : Aligned st) :
    tarread env opts st bs.flatten = runBlocks env opts { st with batch := false } bs := by
  refine loop_eq_runBlocks hbs h ?_
  rw [length_flatten_blocks hbs]
  omega

theorem headerBlock_aligned (h : st.skipping = 0) (hnext : headerBlock env opts st b = .next st') :
    Aligned st' := by
  have hleaves : (readHeader env opts st b).Leaves { st with lookingForHeader := false } :=
    readHeader_leaves (aligned_of_not_skipping h)
  unfold headerBlock at hnext
  cases hread : readHeader env opts st b with
  | undefined =>
    rw [hread] at hnext
    cases hnext
  | eof st₁ =>
    rw [hread] at hnext
    cases hnext
  | next st₁ =>
    rw [hread] at hnext hleaves
    obtain rfl := BlockEnd.next.inj hnext
    exact hleaves
  | empty st₁ =>
    rw [hread] at hnext hleaves
    obtain rfl := BlockEnd.next.inj hnext
    exact hleaves
  | data st₁ =>
    rw [hread] at hnext hleaves
    obtain rfl := BlockEnd.next.inj hnext
    split
    · exact Nat.dvd_zero _
    · exact aligned_of_not_skipping (hleaves.1.trans h)

theorem blockStep_aligned (h : Aligned st) (hnext : blockStep env opts st b = .next st') :
    Aligned st' := by
  unfold blockStep at hnext
  split at hnext
  · obtain rfl := BlockEnd.next.inj hnext
    exact Nat.dvd_sub h (Nat.dvd_refl _)
  · next hskip =>
    have hskip : st.skipping = 0 := not_not.1 hskip
    split at hnext
    · exact headerBlock_aligned hskip hnext
    · split at hnext
      · have hfinish : (finishFile opts st 512 none).skipping = 0 := rfl
        exact headerBlock_aligned hfinish hnext
      · unfold dataBlock at hnext
        obtain ⟨-, hskip₁⟩ := prepare_size opts st (b.take (min st.size 512))
        dsimp only at hnext
        split at hnext
        · obtain rfl := BlockEnd.next.inj hnext
          split
          · exact Nat.dvd_zero _
          · exact aligned_of_not_skipping (hskip₁.trans hskip)
        · cases hnext
        · split at hnext
          · obtain rfl := BlockEnd.next.inj hnext
            exact Nat.dvd_sub (roundUp_dvd _) (Nat.dvd_refl _)
          · next hz => exact headerBlock_aligned (not_not.1 hz) hnext

theorem runBlocks_aligned (h : Aligned st) (hrun : runBlocks env opts st bs = some (false, st')) :
    Aligned st' := by
  induction bs generalizing st with
  | nil =>
    obtain ⟨-, rfl⟩ := Prod.mk.inj (Option.some.inj hrun)
    exact h
  | cons b bs ih =>
    rw [runBlocks_cons] at hrun
    cases hstep : blockStep env opts st b with
    | undefined =>
      rw [hstep] at hrun
      cases hrun
    | eof st₁ =>
      rw [hstep] at hrun
      cases (Prod.mk.inj (Option.some.inj hrun)).1
    | next st₁ =>
      rw [hstep] at hrun
      exact ih (blockStep_aligned h hstep) hrun

theorem runBlocks_append (st : Tar) (bs bs' : List (List Byte)) :
    runBlocks env opts st (bs ++ bs') =
      match runBlocks env opts st bs with
      | none => none
      | some (true, st) => some (true, st)
      | some (false, st) => runBlocks env opts st bs' := by
  induction bs generalizing st with
  | nil => rfl
  | cons b bs ih =>
    rw [List.cons_append, runBlocks_cons, runBlocks_cons]
    cases blockStep env opts st b with
    | undefined => rfl
    | eof st₁ => rfl
    | next st₁ => exact ih st₁

/-- No buffer ends between the header of a batch file and the end of the next file that is
written, but for the last one. -/
def clean (env : Env) (opts : Options) : Tar → List (List Byte) → Bool
  | _, [] => true
  | st, buf :: bufs =>
      match tarread env opts st buf with
      | some (false, st) => (bufs.isEmpty || !st.batch) && clean env opts st bufs
      | _ => true

/-- The buffers are taken as one. -/
theorem feed_eq_runBlocks {bufs : List (List Byte)} (hbs : ∀ b ∈ bs, b.length = 512)
    (hflat : bufs.flatten = bs.flatten)
    (hwhole : ∀ buf ∈ bufs, Whole buf) (h : Aligned st) (hclean : clean env opts st bufs = true)
    (hne : bufs ≠ []) :
    feed env opts st bufs = (runBlocks env opts { st with batch := false } bs).map Prod.snd := by
  induction bufs generalizing st bs with
  | nil => exact absurd rfl hne
  | cons buf bufs ih =>
    obtain ⟨bs₁, hbs₁, rfl⟩ := exists_blocks (hwhole buf List.mem_cons_self).2
    have hwhole' : ∀ buf ∈ bufs, Whole buf := fun buf hb => hwhole buf (List.mem_cons_of_mem _ hb)
    obtain ⟨bs₂, hbs₂, hflat₂⟩ := exists_blocks (dvd_length_flatten hwhole')
    have hsplit : bs = bs₁ ++ bs₂ := by
      refine blocks_unique hbs (fun b hb => ?_) ?_
      · obtain hb | hb := List.mem_append.1 hb
        · exact hbs₁ b hb
        · exact hbs₂ b hb
      · rw [← hflat, List.flatten_cons, List.flatten_append, hflat₂]
    subst hsplit
    rw [feed, runBlocks_append, tarread_eq hbs₁ h]
    rw [clean, tarread_eq hbs₁ h] at hclean
    cases hrun : runBlocks env opts { st with batch := false } bs₁ with
    | none => rfl
    | some r =>
      obtain ⟨eof, st₁⟩ := r
      cases eof with
      | true => rfl
      | false =>
        rw [hrun] at hclean
        have haligned₀ : Aligned { st with batch := false } := h
        have haligned : Aligned st₁ := runBlocks_aligned haligned₀ hrun
        cases bufs with
        | nil =>
          obtain rfl : bs₂ = [] := by
            have := length_flatten_blocks hbs₂
            rw [← hflat₂] at this
            rw [← List.length_eq_zero_iff]
            simpa using this.symm
          rfl
        | cons buf' bufs =>
          simp only [List.isEmpty_cons, Bool.false_or, Bool.and_eq_true,
            Bool.not_eq_true'] at hclean
          have hbatch : st₁.batch = false := hclean.1
          have heq : { st₁ with batch := false } = st₁ := by rw [← hbatch]
          have := ih hbs₂ hflat₂ hwhole' haligned hclean.2 (List.cons_ne_nil _ _)
          rw [heq] at this
          exact this

/-- The files with what is written to them, the last one first. -/
def files (events : List Event) : List (Name × List Byte) :=
  events.foldl (fun acc e => match e, acc with
    | .opened name, acc => (name, []) :: acc
    | .wrote bytes, (name, contents) :: acc => (name, contents ++ bytes) :: acc
    | _, acc => acc) []

def plainEnv : Env := ⟨fun _ name => (name, true), fun _ name => (name, true), fun _ _ => none⟩

def plainOptions : Options := ⟨true, false, false, false, false, false⟩

def startTar : Tar := ⟨true, 0, 0, 0, 0, [], true, .dosBinary, false, []⟩

def pad (n : ℕ) (l : List Byte) : List Byte := l ++ List.replicate (n - l.length) 0

def header514 (name chksum : List Byte) : List Byte :=
  pad 100 name ++ pad 24 [0x36, 0x34, 0x34] ++ pad 24 [0x31, 0x30, 0x30,
    0x32] ++ pad 8 chksum ++ pad 356 [0x30]

def blankBlock : List Byte := List.replicate 512 0x20

def lineBlock : List Byte := pad 512 [0x20, 0x0a]

def txtHeader : List Byte := header514 [0x61, 0x2e, 0x74, 0x78, 0x74] [0x32, 0x32, 0x30, 0x30]

def batHeader : List Byte := header514 [0x61, 0x2e, 0x62, 0x61, 0x74] [0x32, 0x31, 0x32, 0x37]

end DjgppLibc.Djtar
