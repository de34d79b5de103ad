import DjgppLibc.DjtarMembers
import DjgppLibc.DjtarNames

/-!
# Batch files in a tar archive

A member with the extension `.bat` is written with CRLF at its line ends. The conversion looks
at the byte in front of each LF, but not where a block begins; and the extension is looked for
in the field of the name up to a NUL, which is not there behind a name of 100 characters.
-/
namespace DjgppLibc.Djtar

/-- The data with CR in front of each LF that is not behind one; the first byte is `prev`. -/
def crlf : Byte → List Byte → List Byte
  | _, [] => []
  | prev, c :: l => if c = 0x0a ∧ prev ≠ 0x0d then 0x0d :: c :: crlf c l else c :: crlf c l

def asText (l : List Byte) : List Byte := l.flatMap fun c => if c = 0x0a then [0x0d, c] else [c]

def LfBehind (p : Byte → Prop) : Byte → List Byte → Prop
  | _, [] => True
  | prev, c :: l => (c = 0x0a → p prev) ∧ LfBehind p c l

/-- No block begins with an LF that is not behind a CR. -/
def StartsClean : Byte → List (List Byte) → Prop
  | _, [] => True
  | prev, b :: bs => (b.head? = some 0x0a → prev = 0x0d) ∧ StartsClean (b.getLast?.getD prev) bs

attribute [grind =] crlf LfBehind StartsClean

variable {l : List Byte} {prev : Byte}

theorem toBatch_cons (c : Byte) (l : List Byte) : toBatch (c :: l) = c :: crlf c l := by
  induction l generalizing c with
  | nil => rfl
  | cons d l ih =>
      rw [toBatch, ih, crlf]

theorem toBatch_eq (l : List Byte) : toBatch l = crlf 0x0d l := by
  cases l with
  | nil => rfl
  | cons c l =>
      rw [toBatch_cons, crlf, if_neg fun h => h.2 rfl]

theorem crlf_append (prev : Byte) (l l' : List Byte) :
    crlf prev (l ++ l') = crlf prev l ++ crlf (l.getLast?.getD prev) l' := by
  induction l generalizing prev with
  | nil => rfl
  | cons c l ih =>
      have hlast : (c :: l).getLast?.getD prev = l.getLast?.getD c := by
        rw [List.getLast?_cons, Option.getD_some]
      rw [List.cons_append, crlf, crlf, ih, hlast]
      split <;> rfl

/-- At the start of a block a CR may be missing. -/
theorem crlf_start (prev : Byte) (l : List Byte) :
    crlf prev l = (if l.head? = some 0x0a ∧ prev ≠ 0x0d then [0x0d] else []) ++ crlf 0x0d l := by
  cases l with
  | nil => simp [crlf]
  | cons c l =>
      rw [crlf, crlf]
      simp only [List.head?_cons, Option.some.injEq]
      split <;> simp

theorem length_batch_le (prev : Byte) (bs : List (List Byte)) :
    (bs.map toBatch).flatten.length ≤ (crlf prev bs.flatten).length := by
  induction bs generalizing prev with
  | nil => exact Nat.zero_le _
  | cons b bs ih =>
      have hrest := ih (b.getLast?.getD prev)
      rw [List.map_cons, List.flatten_cons, List.flatten_cons, crlf_append, crlf_start, toBatch_eq]
      simp only [List.length_append]
      omega

theorem batch_eq_iff (prev : Byte) (bs : List (List Byte)) :
    (bs.map toBatch).flatten = crlf prev bs.flatten ↔ StartsClean prev bs := by
  induction bs generalizing prev with
  | nil => simp [crlf, StartsClean]
  | cons b bs ih =>
      rw [List.map_cons, List.flatten_cons, List.flatten_cons, crlf_append, crlf_start, toBatch_eq,
        StartsClean, ← ih]
      by_cases hbad : b.head? = some 0x0a ∧ prev ≠ 0x0d
      · -- The missing CR makes the file shorter.
        rw [if_pos hbad]
        refine iff_of_false ?_ fun h => hbad.2 (h.1 hbad.1)
        intro heq
        have hlen := congrArg List.length heq
        have hle := length_batch_le (b.getLast?.getD prev) bs
        simp only [List.length_append, List.length_singleton] at hlen
        omega
      · rw [if_neg hbad, List.nil_append, List.append_cancel_left_eq]
        exact (and_iff_right fun hhead => not_not.mp fun hprev => hbad ⟨hhead, hprev⟩).symm

theorem length_le_crlf (prev : Byte) (l : List Byte) : l.length ≤ (crlf prev l).length := by
  induction l generalizing prev with
  | nil => exact Nat.zero_le _
  | cons c l ih =>
      have hrest := ih c
      rw [crlf]
      split <;> simp only [List.length_cons] <;> omega

theorem crlf_eq_self_iff (prev : Byte) (l : List Byte) :
    l = crlf prev l ↔ LfBehind (· = 0x0d) prev l := by
  induction l generalizing prev with
  | nil => simp [crlf, LfBehind]
  | cons c l ih =>
      rw [crlf, LfBehind, ← ih]
      split
      · next h =>
        refine iff_of_false ?_ fun hbehind => h.2 (hbehind.1 h.1)
        intro heq
        have hlen := congrArg List.length heq
        have hle := length_le_crlf c l
        simp only [List.length_cons] at hlen
        omega
      · next h =>
        rw [List.cons_inj_right]
        exact (and_iff_right fun hc => not_not.mp fun hprev => h ⟨hc, hprev⟩).symm

theorem asText_cons (c : Byte) (l : List Byte) :
    asText (c :: l) = (if c = 0x0a then [0x0d, c] else [c]) ++ asText l := List.flatMap_cons

theorem asText_append (l l' : List Byte) : asText (l ++ l') = asText l ++ asText l' :=
  List.flatMap_append

theorem length_crlf_le (prev : Byte) (l : List Byte) :
    (crlf prev l).length ≤ (asText l).length := by
  induction l generalizing prev with
  | nil => exact Nat.zero_le _
  | cons c l ih =>
      have hrest := ih c
      rw [crlf, asText_cons]
      by_cases hc : c = 0x0a
      · rw [if_pos hc, List.length_append]
        split <;> simp only [List.length_cons, List.length_nil] <;> omega
      · rw [if_neg hc, if_neg fun h => hc h.1]
        simp only [List.length_append, List.length_cons, List.length_nil]
        omega

theorem asText_eq_iff (prev : Byte) (l : List Byte) :
    asText l = crlf prev l ↔ LfBehind (· ≠ 0x0d) prev l := by
  induction l generalizing prev with
  | nil => simp [asText, crlf, LfBehind]
  | cons c l ih =>
      rw [asText_cons, crlf, LfBehind, ← ih]
      by_cases hc : c = 0x0a
      · by_cases hprev : prev = 0x0d
        · rw [if_pos hc, if_neg fun h => h.2 hprev]
          refine iff_of_false ?_ fun h => h.1 hc hprev
          intro heq
          have hlen := congrArg List.length heq
          have hle := length_crlf_le c l
          simp only [List.length_append, List.length_cons, List.length_nil] at hlen
          omega
        · rw [if_pos hc, if_pos ⟨hc, hprev⟩, List.cons_append, List.cons_append, List.nil_append,
            List.cons_inj_right, List.cons_inj_right]
          exact (and_iff_right fun _ => hprev).symm
      · rw [if_neg hc, if_neg fun h => hc h.1, List.cons_append, List.nil_append,
          List.cons_inj_right]
        exact (and_iff_right fun h => absurd h hc).symm

theorem guessLoop_dosText (l : List Byte) (h : guessLoop false l = .dosText) : 0x0d ∈ l := by
  induction l with
  | nil => exact absurd h (by decide)
  | cons c l ih =>
      rw [guessLoop] at h
      split at h
      · cases h
      · by_cases hc : c = 0x0d
        · exact hc ▸ List.mem_cons_self
        · rw [decide_eq_false hc, Bool.false_and, Bool.false_or] at h
          exact List.mem_cons_of_mem _ (ih h)

theorem mem_crlf {c : Byte} (prev : Byte) (h : c ∈ l) : c ∈ crlf prev l := by
  induction l generalizing prev with
  | nil => cases h
  | cons d l ih =>
      rw [crlf]
      obtain rfl | h := List.mem_cons.mp h
      · split <;> simp
      · split
        · exact List.mem_cons_of_mem _ (List.mem_cons_of_mem _ (ih d h))
        · exact List.mem_cons_of_mem _ (ih d h)

/-- An event changes the file that was opened last: whether it is in text mode, and its bytes. -/
def Event.apply (f : Bool × List Byte) : Event → Bool × List Byte
  | .opened _ => (false, [])
  | .textMode => (true, f.2)
  | .wrote bytes => (f.1, f.2 ++ if f.1 then asText bytes else bytes)
  | _ => f

def lastFile (events : List Event) : List Byte := (events.foldl Event.apply (false, [])).2

def Member.contents (m : Member) : List Byte := (ownBlocks (sizeOf m.header) m.data).flatten

/-- The conditions under which a member is written with CRLF at its line ends. One that is not
taken for a batch file is written as the options say. -/
def ConvertsTo (opts : Options) (m : Member) : Prop :=
  let blocks := ownBlocks (sizeOf m.header) m.data
  if isBatch m.header then StartsClean 0 blocks
  else
    let fileType := guessFileType (blocks.headD [])
    if opts.textUnix ∧ fileType = .dosText then False
    else if opts.textDos ∧ fileType = .unixText then LfBehind (· ≠ 0x0d) 0 m.contents
    else LfBehind (· = 0x0d) 0 m.contents

theorem foldl_wrote (text : Bool) (acc : List Byte) (bs : List (List Byte)) :
    ((bs.map Event.wrote).foldl Event.apply (text, acc)) =
      (text, acc ++ if text then asText bs.flatten else bs.flatten) := by
  induction bs generalizing acc with
  | nil => cases text <;> simp [asText]
  | cons b bs ih =>
      rw [List.map_cons, List.foldl_cons, Event.apply, ih]
      cases text
      · simp
      · simp [asText_append]

/-- What is written for the data. -/
theorem lastFile_data (opts : Options) (htty : opts.toTty = false) (batch : Bool) (name : Name)
    (events : List Event) (blocks : List (List Byte)) (ftime mode : BitVec 32) :
    lastFile (events ++ (.opened name :: dataEvents opts batch blocks ++
        [.finish name ftime mode])) =
      let data := (blocks.map (convert opts batch (ownType opts batch blocks))).flatten
      if blocks ≠ [] ∧ batch = false ∧ opts.textDos ∧ ownType opts batch blocks = .unixText
      then asText data else data := by
  have hwrote (f : List Byte → List Byte) :
      (blocks.map fun b => Event.wrote (f b)) = (blocks.map f).map Event.wrote := by
    rw [List.map_map]
    rfl
  obtain ⟨fileType, htype⟩ : ∃ t, t = ownType opts batch blocks := ⟨_, rfl⟩
  have hmark : ((if !blocks.isEmpty && !(batch && !opts.toTty) && opts.textDos &&
      fileType = .unixText then [Event.textMode] else []).foldl Event.apply (false, [])) =
        (decide (blocks ≠ [] ∧ batch = false ∧ opts.textDos ∧ fileType = .unixText), []) := by
    rw [htty]
    cases blocks <;> cases batch <;> cases opts.textDos <;> cases fileType <;> rfl
  rw [lastFile, List.foldl_append, List.cons_append, List.foldl_cons, List.foldl_append,
    Event.apply, dataEvents, hwrote, ← htype]
  dsimp only
  rw [List.foldl_append, hmark, foldl_wrote, List.nil_append]
  simp only [List.foldl_cons, List.foldl_nil, Event.apply, decide_eq_true_eq]

theorem tarread_opened {env : Env} {opts : Options} {st : Tar} {m : Member} {name name' : Name}
    (hlook : st.lookingForHeader = true) (hskip : st.skipping = 0) (hm : m.WellFormed opts)
    (hwrite : ∀ l bytes, env.write l bytes = none) (hout : opts.toStdout = false)
    (hnew : env.newName st.events (memberName m.header) = (name, true))
    (hdir : isDirectory opts name m.header = false)
    (hopen : env.openFile st.events name = (name', true)) :
    (tarread env opts st (m.header ++ m.data.flatten)).map (fun r => r.2.events) =
      some (st.events ++ (.opened name' :: dataEvents opts (isBatch m.header)
        (ownBlocks (sizeOf m.header) m.data) ++
          [.finish name' (ftimeOf m.header) (modeOf m.header)])) := by
  have hblocks : ∀ b ∈ m.header :: m.data, b.length = 512 := by
    intro b hb
    obtain rfl | hb := List.mem_cons.mp hb
    · exact hm.header
    · exact hm.blocks b hb
  have hreg : Regular env opts st.events m := by
    rw [Regular, hnew]
    simp [hdir, hopen]
  have hready : Ready { st with batch := false } := ⟨hlook, hskip, rfl⟩
  obtain ⟨st', -, hrun, hevents⟩ := @runBlocks_member env opts _ m [] hwrite hready hm hreg
  have hread : tarread env opts st (m.header :: m.data).flatten =
      runBlocks env opts { st with batch := false } (m.header :: m.data) :=
    tarread_eq hblocks (aligned_of_not_skipping hskip)
  rw [List.flatten_cons] at hread
  rw [List.append_nil] at hrun
  rw [hread, hrun, runBlocks, Option.map_some, hevents, memberEvents]
  simp [hnew, hdir, hout, hopen]

theorem convert_batch (opts : Options) (htty : opts.toTty = false) (t : FileType) :
    convert opts true t = toBatch := by
  funext b
  rw [convert, htty]
  rfl

theorem convert_plain (opts : Options) (htty : opts.toTty = false) (t : FileType) (b : List Byte) :
    convert opts false t b =
      if opts.textUnix ∧ t = .dosText then b.filter fun c => c ≠ 0x0d && c ≠ 0x1a else b := by
  rw [convert, htty, Bool.false_and, if_neg Bool.false_ne_true, Bool.or_false]
  simp only [Bool.and_eq_true, decide_eq_true_eq]

theorem ownType_plain (opts : Options) (htty : opts.toTty = false) (blocks : List (List Byte))
    (h : opts.textDos = true ∨ opts.textUnix = true) :
    ownType opts false blocks = guessFileType (blocks.headD []) := by
  have hasks : asks opts = true := by
    rw [asks, htty, Bool.or_false, Bool.or_eq_true]
    exact h
  rw [ownType, hasks]
  rfl

theorem lastFile_converted_iff (opts : Options) (htty : opts.toTty = false) (m : Member)
    (name : Name) (events : List Event) (ftime mode : BitVec 32) :
    lastFile (events ++ (.opened name :: dataEvents opts (isBatch m.header)
        (ownBlocks (sizeOf m.header) m.data) ++ [.finish name ftime mode])) = crlf 0 m.contents ↔
      ConvertsTo opts m := by
  rw [lastFile_data opts htty, ConvertsTo, Member.contents]
  dsimp only
  generalize ownBlocks (sizeOf m.header) m.data = blocks
  by_cases hbatch : isBatch m.header = true
  · rw [if_pos hbatch, hbatch, if_neg fun h => Bool.noConfusion h.2.1, convert_batch opts htty]
    exact batch_eq_iff 0 blocks
  · rw [if_neg hbatch, Bool.eq_false_iff.mpr hbatch]
    have hdosText : (opts.textUnix = true ∧ ownType opts false blocks = .dosText) ↔
        (opts.textUnix = true ∧ guessFileType (blocks.headD []) = .dosText) :=
      and_congr_right fun h => by rw [ownType_plain opts htty blocks (.inr h)]
    have hunixText : (opts.textDos = true ∧ ownType opts false blocks = .unixText) ↔
        (opts.textDos = true ∧ guessFileType (blocks.headD []) = .unixText) :=
      and_congr_right fun h => by rw [ownType_plain opts htty blocks (.inl h)]
    have hconvert : convert opts false (ownType opts false blocks) = fun b =>
        if opts.textUnix ∧ guessFileType (blocks.headD []) = .dosText
        then b.filter fun c => c ≠ 0x0d && c ≠ 0x1a else b := by
      funext b
      simp only [convert_plain opts htty, hdosText]
    rw [hconvert]
    simp only [hunixText]
    by_cases hdos : opts.textUnix = true ∧ guessFileType (blocks.headD []) = .dosText
    · -- No CR is left, but one is needed.
      have hnot : ¬ (opts.textDos = true ∧ guessFileType (blocks.headD []) = .unixText) := by
        rw [hdos.2]
        exact fun h => nomatch h.2
      have hcr : (0x0d : Byte) ∈ blocks.flatten := by
        have hmem := guessLoop_dosText _ hdos.2
        cases blocks with
        | nil => cases hmem
        | cons b bs => exact List.mem_append_left _ hmem
      simp only [if_pos hdos]
      rw [if_neg fun h => hnot h.2.2]
      refine iff_of_false (fun heq => ?_) not_false
      have hleft := mem_crlf 0 hcr
      rw [← heq, ← List.filter_flatten, List.mem_filter] at hleft
      exact absurd hleft.2 (by decide)
    · simp only [if_neg hdos, List.map_id']
      by_cases hunix : opts.textDos = true ∧ guessFileType (blocks.headD []) = .unixText
      · rw [if_pos hunix, ← asText_eq_iff]
        split_ifs with hne
        · rfl
        · obtain rfl : blocks = [] := by
            by_contra hblocks
            exact hne ⟨hblocks, trivial, hunix⟩
          rfl
      · rw [if_neg hunix, if_neg fun h => hunix h.2.2]
        exact crlf_eq_self_iff 0 _

/-- The field of the name, up to a NUL if there is one, ends in `.bat`. -/
def EndsInBat (header : List Byte) : Prop :=
  ∃ stem ext, cstr (field header 0 100) = stem ++ 0x2e :: ext ∧ ext.map lower = [0x62, 0x61, 0x74]

/-- No byte of an extension `.bat` ends a name or a drive. -/
theorem lower_bat {ext : List Byte} (h : ext.map lower = [0x62, 0x61, 0x74]) :
    ∀ c ∈ ext, c ≠ 0x2e ∧ c ≠ 0x2f ∧ c ≠ 0x5c ∧ c ≠ 0x3a := by
  intro c hc
  have hmem : lower c ∈ [0x62, 0x61, 0x74] := h ▸ List.mem_map_of_mem hc
  refine ⟨?_, ?_, ?_, ?_⟩ <;> (rintro rfl; exact absurd hmem (by decide))

theorem basename_append (stem ext : List Byte)
    (hext : ∀ c ∈ ext, c ≠ 0x2e ∧ c ≠ 0x2f ∧ c ≠ 0x5c ∧ c ≠ 0x3a) :
    ∃ stem', basename (stem ++ 0x2e :: ext) = stem' ++ 0x2e :: ext := by
  have hdrive : ∃ s, basename (stem ++ 0x2e :: ext) =
      ((s ++ 0x2e :: ext).reverse.takeWhile fun c => c ≠ 0x2f && c ≠ 0x5c).reverse := by
    unfold basename
    dsimp only
    split
    · next c rest heq =>
      match stem with
      | [] =>
          have hmem : (0x3a : Byte) ∈ ext := by
            rw [(List.cons.inj heq).2]
            exact List.mem_cons_self
          exact absurd rfl (hext _ hmem).2.2.2
      | [_] => exact absurd (List.cons.inj (List.cons.inj heq).2).1 (by decide)
      | _ :: _ :: s =>
          rw [← (List.cons.inj (List.cons.inj heq).2).2]
          exact ⟨s, rfl⟩
    · exact ⟨stem, rfl⟩
  obtain ⟨s, hs⟩ := hdrive
  have hrev : ∀ c ∈ ext.reverse, (decide (c ≠ 0x2f) && decide (c ≠ 0x5c)) = true := by
    intro c hc
    obtain ⟨-, hslash, hback, -⟩ := hext c (List.mem_reverse.mp hc)
    exact Bool.and_eq_true_iff.mpr ⟨decide_eq_true hslash, decide_eq_true hback⟩
  refine ⟨(s.reverse.takeWhile fun c => c ≠ 0x2f && c ≠ 0x5c).reverse, ?_⟩
  rw [hs, List.reverse_append, List.reverse_cons, List.append_assoc,
    List.takeWhile_append_of_pos hrev]
  simp

theorem isBatch_of_short {header : List Byte} (hnul : 0 ∈ field header 0 100)
    (hbat : EndsInBat header) : isBatch header = true := by
  obtain ⟨stem, ext, hname, hlower⟩ := hbat
  have hext := lower_bat hlower
  obtain ⟨stem', hbase⟩ := basename_append stem ext hext
  have hheader : cstr header = cstr (field header 0 100) := by
    rw [field, List.drop_zero] at hnul ⊢
    rw [← cstr_append_of_mem hnul, List.take_append_drop]
  have hrev : ∀ c ∈ ext.reverse, decide (c ≠ 0x2e) = true := by
    intro c hc
    exact decide_eq_true (hext c (List.mem_reverse.mp hc)).1
  rw [isBatch, hheader, hname, hbase, List.reverse_append, List.reverse_cons, List.append_assoc,
    List.takeWhile_append_of_pos hrev]
  simp [hlower]

theorem convertsTo_of_short {m : Member} (hnul : 0 ∈ field m.header 0 100)
    (hbat : EndsInBat m.header) (opts : Options) :
    ConvertsTo opts m ↔ StartsClean 0 (ownBlocks (sizeOf m.header) m.data) := by
  rw [ConvertsTo]
  dsimp only
  rw [if_pos (isBatch_of_short hnul hbat)]

/-- A member that is extracted gets a CR in front of every LF that is not behind one exactly
under these conditions. -/
theorem batch_extracted_iff (env : Env) (opts : Options) (st : Tar) (m : Member)
    (name name' : Name) (hlook : st.lookingForHeader = true) (hskip : st.skipping = 0)
    (hm : m.WellFormed opts) (hwrite : ∀ l bytes, env.write l bytes = none)
    (hout : opts.toStdout = false) (htty : opts.toTty = false)
    (hnew : env.newName st.events (memberName m.header) = (name, true))
    (hdir : isDirectory opts name m.header = false)
    (hopen : env.openFile st.events name = (name', true)) :
    (tarread env opts st (m.header ++ m.data.flatten)).map (fun r => lastFile r.2.events) =
      some (crlf 0 m.contents) ↔ ConvertsTo opts m := by
  have hevents := congrArg (Option.map lastFile)
    (tarread_opened hlook hskip hm hwrite hout hnew hdir hopen)
  have hfile : (tarread env opts st (m.header ++ m.data.flatten)).map
      (fun r => lastFile r.2.events) = some (lastFile (st.events ++ (.opened name' ::
        dataEvents opts (isBatch m.header) (ownBlocks (sizeOf m.header) m.data) ++
          [.finish name' (ftimeOf m.header) (modeOf m.header)]))) := by
    rw [← Option.map_some, ← hevents, Option.map_map]
    rfl
  rw [hfile, Option.some_inj]
  exact lastFile_converted_iff opts htty m name' st.events (ftimeOf m.header) (modeOf m.header)

/-- The header of `a.bat`, with 514 bytes. -/
def aBatHeader : List Byte :=
  pad 100 [0x61, 0x2e, 0x62, 0x61, 0x74] ++ pad 24 [0x36, 0x34, 0x34] ++
    pad 12 [0x31, 0x30, 0x30, 0x32] ++ pad 12 [0x30] ++ pad 8 [0x32, 0x32, 0x30, 0x37] ++
    pad 356 [0x30]

def batMember (b : List Byte) : Member := ⟨aBatHeader, [b, lineBlock]⟩

theorem batMember_wellFormed {b : List Byte} (hb : b.length = 512) :
    (batMember b).WellFormed plainOptions := by
  have hlength : aBatHeader.length = 512 := by decide +kernel
  have hnamed : aBatHeader.headD 0 ≠ 0 := by decide +kernel
  have hsum : checksumOk aBatHeader = true := by decide +kernel
  have hfile : (isPaxHeader aBatHeader && plainOptions.sSwitch) = false := by decide +kernel
  have hsize : sizeOf aBatHeader = 514 := by decide +kernel
  have hscanSize : Scans (aBatHeader.drop 124) (scanOctal 0 (aBatHeader.drop 124)) :=
    scans_of_digits (by decide +kernel)
  have hscanFtime : Scans (aBatHeader.drop 136) (scanOctal 0 (aBatHeader.drop 136)) :=
    scans_of_digits (by decide +kernel)
  have hscanMode : Scans (aBatHeader.drop 100) (scanOctal 0 (aBatHeader.drop 100)) :=
    scans_of_digits (by decide +kernel)
  refine ⟨hlength, ?_, hnamed, .inl hsum, hfile, hscanSize, hscanFtime, hscanMode, ?_, ?_⟩
  · intro c hc
    obtain rfl | hc := List.mem_cons.mp hc
    · exact hb
    · rw [List.mem_singleton.mp hc]
      decide +kernel
  · show sizeOf aBatHeader ≤ maxSize
    rw [hsize]
    decide
  · show 2 = (sizeOf aBatHeader + 511) / 512
    rw [hsize]

theorem batch_extracted_iff_blank :
    (tarread plainEnv plainOptions startTar ((batMember blankBlock).header ++
      (batMember blankBlock).data.flatten)).map (fun r => lastFile r.2.events) =
        some (crlf 0 (batMember blankBlock).contents) ↔
      ConvertsTo plainOptions (batMember blankBlock) :=
  batch_extracted_iff plainEnv plainOptions startTar (batMember blankBlock) _ _ rfl rfl
    (batMember_wellFormed (by decide +kernel)) (fun _ _ => rfl) rfl rfl rfl (by decide +kernel) rfl

/-- An `a.bat` that begins with an LF does not get a CR there. -/
theorem batch_begins_with_lf :
    EndsInBat aBatHeader ∧
      (tarread plainEnv plainOptions startTar ((batMember (pad 512 [0x0a])).header ++
        (batMember (pad 512 [0x0a])).data.flatten)).map (fun r => lastFile r.2.events) ≠
          some (crlf 0 (batMember (pad 512 [0x0a])).contents) :=
  ⟨⟨[0x61], [0x62, 0x61, 0x74], by decide +kernel, by decide⟩, by decide +kernel⟩

end DjgppLibc.Djtar
