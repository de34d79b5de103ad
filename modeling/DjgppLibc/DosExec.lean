import DjgppLibc.DosExecCmdline

/-!
# Running a program (`dos/process/dosexec.c`)

`go32_exec` puts a table of offsets and the arguments into the transfer buffer
and passes its address in the command tail; `direct_exec_tail_1` adds what DOS
needs, the environment among it. Both allocate from the buffer's start on, so
the buffer is the list of the bytes that are allocated so far. `check_talloc`
may move it to a larger block of DOS memory. What DPMI replies is an input, in
the order in which it is asked.

This is the path outside `system`, where the tail and not the environment
carries the address. A byte that the code allocates and does not set is `junk`.
-/
namespace DjgppLibc.DosExec

def nul : Char := '\x00'

def junk : Char := '\x00'

/-- `__dpmi_allocate_dos_memory`: a block with its selector, or the largest size there is,
which is less than the at most 4096 paragraphs that are asked for. -/
inductive Reply
  | block (seg : Fin 65536) (sel : ℕ)
  | largest (maxAvail : Fin 4096)
deriving DecidableEq

/-- The transfer buffer in use: `tbuf_beg` as a segment, `tbuf_len`,
`tbuf_selector` and the bytes up to `tbuf_ptr`. -/
structure Tbuf where
  seg : Fin 65536
  len : ℕ
  sel : ℕ
  data : List Char
  replies : List Reply
deriving DecidableEq

/-- The function returns -1 with `E2BIG`, or it writes behind a block. -/
inductive Fail
  | e2big
  | outside
deriving DecidableEq

/-- `talloc`, with the bytes that are put there. -/
def Tbuf.talloc (b : Tbuf) (bytes : List Char) : Tbuf := { b with data := b.data ++ bytes }

/-- The loop that doubles the length; 17 rounds reach every length it can want. -/
def doubled (minLen : ℕ) : ℕ → ℕ → ℕ
  | 0, len => len
  | n + 1, len => if len ≤ 65536 ∧ len < minLen then doubled minLen n (2 * len) else len

def Tbuf.moveTo (b : Tbuf) (seg : Fin 65536) (sel len : ℕ) (replies : List Reply) :
    Except Fail Tbuf :=
  if len < b.data.length then .error .outside
  else .ok { seg := seg, len := len, sel := sel, data := b.data, replies := replies }

def checkTalloc (amt : ℕ) (b : Tbuf) : Except Fail Tbuf :=
  if b.data.length + amt < b.len then .ok b
  else
    let minLen := b.len + amt
    if 65536 < minLen then .error .e2big
    else
      let len := doubled minLen 17 b.len
      if len < minLen then .error .e2big
      else
        let len := (min len 65536 + 15) / 16 * 16
        match b.replies with
        | [] => .error .e2big
        | .block seg sel :: replies => b.moveTo seg sel len replies
        | .largest maxAvail :: replies =>
            if maxAvail * 16 < minLen then .error .e2big
            else
              match replies with
              | .block seg sel :: replies => b.moveTo seg sel (maxAvail * 16) replies
              | _ => .error .e2big

def word (w : ℕ) : List Char := [Char.ofNat (w % 256), Char.ofNat (w / 256 % 256)]

/-- `_farpokew` at an offset of the buffer. -/
def Tbuf.pokew (b : Tbuf) (off w : ℕ) : Tbuf :=
  { b with data := b.data.take off ++ word w ++ b.data.drop (off + 2) }

def putArgv : ℕ → List (List Char) → Tbuf → Except Fail Tbuf
  | argvOff, [], b => .ok (b.pokew argvOff 0)
  | argvOff, arg :: argv, b => do
      let b ← checkTalloc (arg.length + 1) b
      let q := b.data.length
      putArgv (argvOff + 2) argv ((b.talloc (arg ++ [nul])).pokew argvOff (q % 65536))

/-- The stub info, the table and the arguments; the result has `rm_off` too. -/
def putTable (stubinfo : Option (List Char)) (argv : List (List Char)) (b : Tbuf) :
    Except Fail (Tbuf × ℕ) := do
  -- `?:` binds less tightly than the sum: with a stub info the table is not counted
  let b ← checkTalloc (match stubinfo with
    | some si => si.length
    | none => 0 + (argv.length + 1) * 2) b
  let b := b.talloc (stubinfo.getD [])
  let rmOff := b.data.length
  let b ← putArgv rmOff argv (b.talloc (List.replicate ((argv.length + 1) * 2) junk))
  .ok (b, rmOff)

def hexDigit (upper : Bool) (d : ℕ) : Char :=
  if d < 10 then Char.ofNat (48 + d) else Char.ofNat ((if upper then 55 else 87) + d)

/-- `%04x`, or `%04X`, of an `unsigned short`. -/
def hex4 (upper : Bool) (w : ℕ) : List Char :=
  [hexDigit upper (w / 4096 % 16), hexDigit upper (w / 256 % 16), hexDigit upper (w / 16 % 16),
    hexDigit upper (w % 16)]

/-- `__PROXY` without its leading blank. -/
def proxyName : List Char := ['!', 'p', 'r', 'o', 'x', 'y']

def proxyTail (argc seg rmOff : ℕ) (stubinfo : Option (List Char)) : List Char :=
  ' ' :: proxyName ++ ' ' :: hex4 false argc ++ ' ' :: hex4 false seg ++
    ' ' :: hex4 false (rmOff % 65536) ++
    match stubinfo with
    | some _ => ' ' :: hex4 false seg ++ ' ' :: hex4 false 0
    | none => []

/-- A string for the `!proxy` variable. -/
def isProxy (ep : List Char) : Bool := (' ' :: proxyName ++ ['=']).isPrefixOf ep

/-- The strings that are passed on when there is no `proxy`. -/
def passedOn (envp : List (List Char)) : List (List Char) := envp.filter fun ep => !isProxy ep

def putStrings : List (List Char) → Tbuf → Except Fail Tbuf
  | [], b => .ok b
  | ep :: envp, b => do
      let b ← checkTalloc (ep.length + 1) b
      putStrings envp (b.talloc (ep ++ [nul]))

/-- What follows the strings of the environment: its end and the name of the program. -/
def trailer (progname : List Char) : List Char := [nul, '\x01', nul] ++ progname ++ [nul]

/-- The segments in the tail are set again if the buffer has been moved. -/
def patchTail (seg : ℕ) (tail : List Char) : List Char :=
  let t2 := hex4 true seg
  let tail' := tail.take 13 ++ t2 ++ tail.drop 17
  if 23 < tail.length then tail'.take 23 ++ t2 ++ tail'.drop 27 else tail'

/-- What the child gets: the buffer, the command tail and the offset of the environment. -/
structure Launch where
  buf : Tbuf
  tail : List Char
  envOff : ℕ
deriving DecidableEq

def tailBlock (args : List Char) : List Char :=
  Char.ofNat args.length :: args ++ ['\x0d', junk] ++ List.replicate (14 + 16 + 16) junk

def directExecTail1 (program progname args : List Char) (envp : List (List Char)) (b : Tbuf) :
    Except Fail Launch := do
  let initialSel := b.sel
  let b ← checkTalloc (program.length + 1) b
  let b ← checkTalloc (progname.length + 1 + args.length + 3 + 14 + 48) b
  let b := (b.talloc (progname ++ [nul])).talloc (tailBlock args)
  -- the environment starts at a paragraph
  let b := b.talloc (List.replicate ((16 - b.data.length % 16) % 16) junk)
  let envOff := b.data.length
  let b ← putStrings (passedOn envp) b
  let b ← checkTalloc (3 + (progname.length + 1)) b
  let b := b.talloc (trailer progname)
  let tail := if initialSel ≠ b.sel then patchTail b.seg args else args
  .ok { buf := b, tail := tail, envOff := envOff }

/-- `go32_exec` outside `system`, from the first allocation on; `rpath` is what
is run and `progname` its name in DOS form. -/
def go32Exec (stubinfo : Option (List Char)) (rpath progname : List Char)
    (argv envp : List (List Char)) (b : Tbuf) : Except Fail Launch := do
  let (b, rmOff) ← putTable stubinfo argv b
  directExecTail1 rpath progname (proxyTail argv.length b.seg rmOff stubinfo) envp b

def startBuf (seg : Fin 65536) (size : ℕ) (replies : List Reply) : Tbuf where
  seg := seg
  len := size
  sel := 0
  data := []
  replies := replies

/-- What is allocated lies in a block of at most 64 KB. -/
structure Tbuf.WF (b : Tbuf) : Prop where
  fits : b.data.length ≤ b.len
  len_le : b.len ≤ 65536

def Tbuf.handles (b : Tbuf) : List ℕ :=
  b.sel :: b.replies.filterMap fun
    | .block _ sel => some sel
    | .largest _ => none

/-- The buffer `b'` is `b` with more bytes, maybe in another block. -/
structure Extends (b b' : Tbuf) : Prop where
  data : b.data <+: b'.data
  len : b.len ≤ b'.len
  handles : b'.handles <:+ b.handles
  seg : b'.seg = b.seg ∨ b'.handles.length < b.handles.length

variable {b b' b'' : Tbuf} {n : ℕ}

theorem Extends.refl (b : Tbuf) : Extends b b :=
  ⟨List.prefix_refl _, Nat.le_refl _, List.suffix_refl _, .inl rfl⟩

theorem Extends.trans (h : Extends b b') (h' : Extends b' b'') : Extends b b'' := by
  refine ⟨h.data.trans h'.data, h.len.trans h'.len, h'.handles.trans h.handles, ?_⟩
  have hle := h.handles.length_le
  have hle' := h'.handles.length_le
  rcases h.seg with hs | hs
  · rcases h'.seg with hs' | hs'
    · exact .inl (hs'.trans hs)
    · exact .inr (by omega)
  · exact .inr (by omega)

theorem extends_talloc (b : Tbuf) (bytes : List Char) : Extends b (b.talloc bytes) :=
  ⟨List.prefix_append _ _, Nat.le_refl _, List.suffix_refl _, .inl rfl⟩

theorem Tbuf.WF.talloc (h : b.WF) {bytes : List Char} (hb : b.data.length + bytes.length ≤ b.len) :
    (b.talloc bytes).WF := by
  refine ⟨?_, h.len_le⟩
  rw [Tbuf.talloc, List.length_append]
  exact hb

/-- If the last selector is the first one, the buffer was not moved. -/
theorem Extends.seg_of_sel (h : Extends b b') (hb : b.handles.Nodup) (hs : b'.sel = b.sel) :
    b'.seg = b.seg := by
  refine h.seg.resolve_right fun hlt => ?_
  obtain ⟨l, hl⟩ := h.handles
  cases l with
  | nil =>
      rw [List.nil_append] at hl
      rw [hl] at hlt
      exact Nat.lt_irrefl _ hlt
  | cons x l =>
      rw [← hl, List.cons_append, List.nodup_cons] at hb
      have hx : x = b.sel := (List.cons.inj hl).1
      refine hb.1 (List.mem_append_right _ ?_)
      rw [hx, ← hs]
      exact List.mem_cons_self

theorem moveTo_ok {seg : Fin 65536} {sel len : ℕ} {replies : List Reply}
    (hfits : b.data.length ≤ len) :
    b.moveTo seg sel len replies =
      .ok { seg := seg, len := len, sel := sel, data := b.data, replies := replies } := by
  rw [Tbuf.moveTo, if_neg (Nat.not_lt.mpr hfits)]

/-- The function is out of space, or its result is as it should be. -/
def Ensures {α : Type} (x : Except Fail α) (P : α → Prop) : Prop :=
  x = .error .e2big ∨ ∃ a, x = .ok a ∧ P a

theorem Ensures.bind {α β : Type} {x : Except Fail α} {f : α → Except Fail β} {P : α → Prop}
    {Q : β → Prop} (hx : Ensures x P) (hf : ∀ a, P a → Ensures (f a) Q) : Ensures (x >>= f) Q := by
  rcases hx with rfl | ⟨a, rfl, ha⟩
  · exact .inl rfl
  · exact hf a ha

theorem Ensures.ok {α : Type} {a : α} {P : α → Prop} (h : P a) : Ensures (.ok a) P :=
  .inr ⟨a, rfl, h⟩

/-- A well-formed buffer stays so, with room for what was asked for. -/
theorem checkTalloc_spec (hb : b.WF) (n : ℕ) :
    Ensures (checkTalloc n b) fun b' => b'.data = b.data ∧ b'.data.length + n ≤ b'.len ∧
      b'.len ≤ 65536 ∧ Extends b b' := by
  have hfits := hb.fits
  unfold checkTalloc
  by_cases hroom : b.data.length + n < b.len
  · rw [if_pos hroom]
    exact .inr ⟨b, rfl, rfl, hroom.le, hb.len_le, .refl b⟩
  rw [if_neg hroom]
  dsimp only
  by_cases hmax : 65536 < b.len + n
  · exact .inl (if_pos hmax)
  rw [if_neg hmax]
  by_cases hmin : doubled (b.len + n) 17 b.len < b.len + n
  · exact .inl (if_pos hmin)
  rw [if_neg hmin]
  cases hreplies : b.replies with
  | nil => exact .inl rfl
  | cons r replies =>
      cases r with
      | block seg sel =>
          refine .inr ⟨_, moveTo_ok (by omega), rfl, ?_, ?_, List.prefix_refl _, ?_, ?_, .inr ?_⟩
          · dsimp only
            omega
          · dsimp only
            omega
          · dsimp only
            omega
          · rw [Tbuf.handles, Tbuf.handles, hreplies]
            exact List.suffix_cons _ _
          · simp [Tbuf.handles, hreplies]
      | largest maxAvail =>
          dsimp only
          by_cases hless : (maxAvail : ℕ) * 16 < b.len + n
          · exact .inl (if_pos hless)
          rw [if_neg hless]
          cases replies with
          | nil => exact .inl rfl
          | cons r replies =>
              cases r with
              | largest _ => exact .inl rfl
              | block seg sel =>
                  refine .inr ⟨_, moveTo_ok (by omega), rfl, ?_, ?_, List.prefix_refl _, ?_, ?_,
                    .inr ?_⟩
                  · dsimp only
                    omega
                  · dsimp only
                    omega
                  · dsimp only
                    omega
                  · rw [Tbuf.handles, Tbuf.handles, hreplies]
                    exact List.suffix_cons _ _
                  · simp [Tbuf.handles, hreplies]

/-- Strings with the NUL of each. -/
def strings (ss : List (List Char)) : List Char := ss.flatMap (· ++ [nul])

theorem putStrings_spec (ss : List (List Char)) (hb : b.WF) :
    Ensures (putStrings ss b) fun b' => b'.data = b.data ++ strings ss ∧ b'.WF ∧ Extends b b' := by
  induction ss generalizing b with
  | nil =>
      refine .ok ⟨?_, hb, .refl b⟩
      simp [strings]
  | cons ep ss ih =>
      refine (checkTalloc_spec hb _).bind fun b₁ ⟨hdata, hroom, hlen, hext⟩ => ?_
      have hwf : (b₁.talloc (ep ++ [nul])).WF := by
        refine Tbuf.WF.talloc ⟨by omega, hlen⟩ ?_
        rw [List.length_append, List.length_singleton]
        omega
      rcases ih hwf with h | ⟨b₂, h, hd, hw, he⟩
      · exact .inl h
      · refine .inr ⟨b₂, h, ?_, hw, hext.trans ((extends_talloc _ _).trans he)⟩
        rw [hd, Tbuf.talloc, hdata, strings, strings, List.flatMap_cons, List.append_assoc]

/-- The offsets of the arguments, when the first is put at `q`. -/
def offsets : ℕ → List (List Char) → List ℕ
  | _, [] => []
  | q, arg :: argv => q :: offsets (q + (arg.length + 1)) argv

def table (q : ℕ) (argv : List (List Char)) : List Char := (offsets q argv).flatMap word ++ word 0

theorem pokew_data {before : List Char} (after : List Char) {off w : ℕ}
    (h : before.length = off) (x y : Char)
    (hb : b.data = before ++ x :: y :: after) :
    (b.pokew off w).data = before ++ word w ++ after := by
  subst h
  rw [Tbuf.pokew, hb, List.take_left, ← List.drop_drop, List.drop_left]
  rfl

theorem putArgv_spec (argv : List (List Char)) (before after : List Char) (off : ℕ) (hb : b.WF)
    (hoff : before.length = off)
    (hdata : b.data = before ++ List.replicate ((argv.length + 1) * 2) junk ++ after) :
    Ensures (putArgv off argv b) fun b' =>
      b'.data = before ++ table b.data.length argv ++ after ++ strings argv ∧ b'.WF ∧
        b'.handles <:+ b.handles := by
  induction argv generalizing b before after off with
  | nil =>
      have hpoke := pokew_data (w := 0) after hoff junk junk (by simpa using hdata)
      refine .ok ⟨?_, ⟨?_, hb.len_le⟩, List.suffix_refl _⟩
      · rw [hpoke]
        simp [table, offsets, strings]
      · have hlen : (b.pokew off 0).data.length = b.data.length := by
          rw [hpoke, hdata]
          simp [word]
        rw [hlen]
        exact hb.fits
  | cons arg argv ih =>
      rw [putArgv]
      refine (checkTalloc_spec hb _).bind fun b₁ ⟨hd₁, hroom, hlen₁, hext⟩ => ?_
      dsimp only
      have hq : b₁.data.length % 65536 = b.data.length := by
        rw [← hd₁]
        exact Nat.mod_eq_of_lt (by omega)
      rw [hq]
      obtain ⟨b₂, hb₂⟩ : ∃ b₂, b₂ = (b₁.talloc (arg ++ [nul])).pokew off b.data.length := ⟨_, rfl⟩
      have hd₂ : b₂.data = before ++ word b.data.length ++
          (List.replicate ((argv.length + 1) * 2) junk ++ (after ++ (arg ++ [nul]))) := by
        rw [hb₂]
        refine pokew_data _ hoff junk junk ?_
        rw [Tbuf.talloc, hd₁, hdata, List.length_cons,
          show (argv.length + 1 + 1) * 2 = (argv.length + 1) * 2 + 2 by omega,
          List.replicate_succ, List.replicate_succ]
        simp
      have hl₂ : b₂.data.length = b.data.length + (arg.length + 1) := by
        rw [hd₂, hdata]
        simp [word]
        omega
      have hw₂ : b₂.WF := by
        refine ⟨?_, ?_⟩
        · rw [hl₂, hb₂]
          change _ ≤ b₁.len
          rw [hd₁] at hroom
          omega
        · rw [hb₂]
          exact hlen₁
      have hrec := ih (before ++ word b.data.length) (after ++ (arg ++ [nul])) (off + 2) hw₂
        (by rw [List.length_append, hoff]; rfl) (by rw [hd₂]; simp)
      rw [← hb₂]
      rcases hrec with h | ⟨b₃, h, hd₃, hw₃, hs₃⟩
      · exact .inl h
      · refine .inr ⟨b₃, h, ?_, hw₃, ?_⟩
        · rw [hd₃, hl₂]
          simp [table, offsets, strings]
        · rw [hb₂] at hs₃
          exact hs₃.trans hext.handles

def TableFits (stubinfo : Option (List Char)) (argc size : ℕ) : Prop :=
  ∀ si, stubinfo = some si → si.length + (argc + 1) * 2 ≤ size

theorem putTable_spec {stubinfo : Option (List Char)} {argv : List (List Char)} (hb : b.WF)
    (hempty : b.data = []) (hfits : TableFits stubinfo argv.length b.len) :
    Ensures (putTable stubinfo argv b) fun r =>
      let si := stubinfo.getD []
      r.2 = si.length ∧
        r.1.data = si ++ table (si.length + (argv.length + 1) * 2) argv ++ strings argv ∧
        r.1.WF ∧ r.1.handles <:+ b.handles := by
  unfold putTable
  refine (checkTalloc_spec hb _).bind fun b₁ ⟨hd, hroom, hlen, hext⟩ => ?_
  have hsize : (stubinfo.getD []).length + (argv.length + 1) * 2 ≤ b₁.len := by
    cases stubinfo with
    | none =>
        rw [hd, hempty] at hroom
        simpa using hroom
    | some si => exact (hfits si rfl).trans hext.len
  obtain ⟨b₂, hb₂⟩ : ∃ b₂, b₂ = (b₁.talloc (stubinfo.getD [])).talloc
      (List.replicate ((argv.length + 1) * 2) junk) := ⟨_, rfl⟩
  have hd₂ : b₂.data = stubinfo.getD [] ++ List.replicate ((argv.length + 1) * 2) junk := by
    rw [hb₂, Tbuf.talloc, Tbuf.talloc, hd, hempty]
    rfl
  have hw₂ : b₂.WF := by
    refine ⟨?_, ?_⟩
    · rw [hd₂, List.length_append, List.length_replicate, hb₂]
      exact hsize
    · rw [hb₂]
      exact hlen
  have hoff : (b₁.talloc (stubinfo.getD [])).data.length = (stubinfo.getD []).length := by
    rw [Tbuf.talloc, hd, hempty]
    rfl
  dsimp only
  rw [← hb₂, hoff]
  refine (putArgv_spec argv (stubinfo.getD []) [] _ hw₂ rfl ?_).bind fun b₃ ⟨hd₃, hw₃, hs₃⟩ => ?_
  · rw [hd₂, List.append_nil]
  · refine .ok ⟨rfl, ?_, hw₃, ?_⟩
    · rw [hd₃, hd₂, List.append_nil, List.length_append, List.length_replicate]
    · rw [hb₂] at hs₃
      exact hs₃.trans hext.handles

/-- The buffer of the parent is kept, and the environment starts at its offset. -/
theorem directExecTail1_spec (program progname args : List Char) (envp : List (List Char))
    (hb : b.WF) :
    Ensures (directExecTail1 program progname args envp b) fun l =>
      Extends b l.buf ∧
        l.tail = (if b.sel ≠ l.buf.sel then patchTail l.buf.seg args else args) ∧
        l.buf.data.drop l.envOff = strings (passedOn envp) ++ trailer progname ∧
        l.buf.data.length ≤ 65536 := by
  unfold directExecTail1
  refine (checkTalloc_spec hb _).bind fun b₁ ⟨hd₁, hroom₁, hlen₁, hext₁⟩ => ?_
  refine (checkTalloc_spec ⟨by omega, hlen₁⟩ _).bind fun b₂ ⟨hd₂, hroom₂, hlen₂, hext₂⟩ => ?_
  dsimp only
  obtain ⟨b₃, hb₃⟩ : ∃ b₃, b₃ = (b₂.talloc (progname ++ [nul])).talloc (tailBlock args) := ⟨_, rfl⟩
  obtain ⟨b₄, hb₄⟩ : ∃ b₄, b₄ =
      b₃.talloc (List.replicate ((16 - b₃.data.length % 16) % 16) junk) := ⟨_, rfl⟩
  have hext₄ : Extends b b₄ := by
    rw [hb₄, hb₃]
    exact hext₁.trans (hext₂.trans ((extends_talloc _ _).trans ((extends_talloc _ _).trans
      (extends_talloc _ _))))
  have hw₄ : b₄.WF := by
    refine ⟨?_, ?_⟩
    · have hl₃ : b₃.data.length = b₂.data.length + (progname.length + 1) + (args.length + 49) := by
        rw [hb₃, Tbuf.talloc, Tbuf.talloc]
        simp [tailBlock]
        omega
      have hlen : b₄.len = b₂.len := by rw [hb₄, hb₃]; rfl
      rw [hlen, hb₄, Tbuf.talloc, List.length_append, List.length_replicate]
      omega
    · rw [hb₄, hb₃]
      exact hlen₂
  rw [← hb₃, ← hb₄]
  refine (putStrings_spec (passedOn envp) hw₄).bind fun b₅ ⟨hd₅, hw₅, hext₅⟩ => ?_
  refine (checkTalloc_spec hw₅ _).bind fun b₆ ⟨hd₆, hroom₆, hlen₆, hext₆⟩ => ?_
  refine .ok ⟨hext₄.trans (hext₅.trans (hext₆.trans (extends_talloc _ _))), rfl, ?_, ?_⟩
  · dsimp only [Tbuf.talloc]
    rw [hd₆, hd₅, List.append_assoc, List.drop_left]
  · dsimp only [Tbuf.talloc]
    rw [List.length_append]
    have htrailer : (trailer progname).length = 3 + (progname.length + 1) := by
      simp [trailer]
      omega
    omega

end DjgppLibc.DosExec
