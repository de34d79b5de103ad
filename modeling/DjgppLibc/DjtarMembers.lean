import DjgppLibc.DjtarBlocks

/-!
# The members of an archive

What `tarread` should do with a member: nothing if it is rejected, and otherwise to open a
file, write the member's own data to it and set its time and mode. `extract_members` says
when it does this. After an error of `write` it resumes a block too early, for an empty
member that cannot be opened it sets the time and the mode of the file that is in the way,
and a batch file that is not written leaves its mark on the next one.
-/
namespace DjgppLibc.Djtar

structure Member where
  header : List Byte
  data : List (List Byte)

/-- The number in a field, if it does not depend on what was there before. -/
def Scans (text : List Byte) (v : BitVec 32) : Prop := ∀ old, scanOctal old text = v

def sizeOf (header : List Byte) : ℕ := if isLink header then 0
    else (scanOctal 0 (header.drop 124)).toNat

def ftimeOf (header : List Byte) : BitVec 32 := scanOctal 0 (header.drop 136)

def modeOf (header : List Byte) : BitVec 32 := scanOctal 0 (header.drop 100)

structure Member.WellFormed (opts : Options) (m : Member) : Prop where
  header : m.header.length = 512
  blocks : ∀ b ∈ m.data, b.length = 512
  named : m.header.headD 0 ≠ 0
  checksum : checksumOk m.header = true ∨ opts.ignoreCsum = true
  file : (isPaxHeader m.header && opts.sSwitch) = false
  size : Scans (m.header.drop 124) (scanOctal 0 (m.header.drop 124))
  ftime : Scans (m.header.drop 136) (ftimeOf m.header)
  mode : Scans (m.header.drop 100) (modeOf m.header)
  fits : sizeOf m.header ≤ maxSize
  data : m.data.length = (sizeOf m.header + 511) / 512

def ownBlocks : ℕ → List (List Byte) → List (List Byte)
  | _, [] => []
  | size, b :: bs => b.take (min size 512) :: ownBlocks (size - 512) bs

def asks (opts : Options) : Bool := opts.textDos || opts.textUnix || opts.toTty

def convert (opts : Options) (batch : Bool) (fileType : FileType) (b : List Byte) : List Byte :=
  if batch && !opts.toTty then toBatch b
  else if (opts.textUnix || opts.toTty) && fileType = .dosText
    then b.filter fun c => c ≠ 0x0d && c ≠ 0x1a
  else b

def ownType (opts : Options) (batch : Bool) (blocks : List (List Byte)) : FileType :=
  if asks opts && !(batch && !opts.toTty) then guessFileType (blocks.headD []) else .dosBinary

def dataEvents (opts : Options) (batch : Bool) (blocks : List (List Byte)) : List Event :=
  let fileType := ownType opts batch blocks
  (if !blocks.isEmpty && !(batch && !opts.toTty) && opts.textDos && fileType =
    .unixText then [.textMode] else []) ++
    blocks.map fun b => .wrote (convert opts batch fileType b)

def isDirectory (opts : Options) (name : Name) (header : List Byte) : Bool :=
  (name.getLast? = some 0x2f || isDirtype header) && !opts.toStdout

/-- What should happen to files for a member, after some events. -/
def memberEvents (env : Env) (opts : Options) (events : List Event) (m : Member) : List Event :=
  let blocks := ownBlocks (sizeOf m.header) m.data
  let data := dataEvents opts (isBatch m.header) blocks
  match env.newName events (memberName m.header) with
  | (_, false) => []
  | (name, true) =>
      if isDirectory opts name m.header then
        [.directory (if name.getLast? = some 0x2f then name.dropLast else name)]
      else if opts.toStdout then data
      else
        match env.openFile events name with
        | (name, false) => [.refused name]
        | (name, true) =>
            .opened name :: data ++ [.finish name (ftimeOf m.header) (modeOf m.header)]

def archiveEvents (env : Env) (opts : Options) : List Event → List Member → List Event
  | _, [] => []
  | events, m :: ms =>
      let l := memberEvents env opts events m
      l ++ archiveEvents env opts (events ++ l) ms

/-- A member that is not empty, or that is opened if it should be; a batch file is written,
and a directory has no data. -/
def Regular (env : Env) (opts : Options) (events : List Event) (m : Member) : Prop :=
  match env.newName events (memberName m.header) with
  | (_, false) => isBatch m.header = false
  | (name, true) =>
      if isDirectory opts name m.header then isBatch m.header = false ∧ m.data = []
      else opts.toStdout = true ∨ (env.openFile events name).2 = true ∨
        (sizeOf m.header ≠ 0 ∧ isBatch m.header = false)

def AllRegular (env : Env) (opts : Options) : List Event → List Member → Prop
  | _, [] => True
  | events, m :: ms =>
      Regular env opts events m ∧ AllRegular env opts (events ++ memberEvents env opts events m) ms

variable {env : Env} {opts : Options} {st : Tar} {m : Member} {bs rest : List (List Byte)}

theorem runBlocks_skip (hskip : st.skipping = 512 * bs.length) (hne : bs ≠ []) :
    runBlocks env opts st (bs ++ rest) =
      runBlocks env opts { st with skipping := 0, lookingForHeader := true } rest := by
  induction bs generalizing st with
  | nil => exact absurd rfl hne
  | cons b bs ih =>
    rw [List.length_cons] at hskip
    rw [List.cons_append, runBlocks_cons, blockStep, if_pos (by omega), afterBlock]
    cases bs with
    | nil => simp [skipBlock, hskip]
    | cons b' bs =>
      have hsub : (skipBlock st).skipping = 512 * (b' :: bs).length := by
        show st.skipping - 512 = _
        omega
      rw [ih hsub (List.cons_ne_nil _ _)]
      rfl

def Settled (opts : Options) (st : Tar) : Prop :=
  (st.batch && !opts.toTty) = true ∨ asks opts = false ∨ st.firstBlock = false

theorem prepare_settled (h : Settled opts st) (b : List Byte) :
    prepare opts st b = (st, convert opts st.batch st.fileType b) := by
  unfold prepare convert
  split
  · rfl
  · next hbatch =>
    have hfirst : (st.firstBlock && (opts.textDos || opts.textUnix || opts.toTty)) = false := by
      obtain h | h | h := h
      · exact absurd h hbatch
      · rw [show (opts.textDos || opts.textUnix || opts.toTty) = false from h, Bool.and_false]
      · rw [h, Bool.false_and]
    simp only [hfirst, Bool.false_eq_true, if_false]
    split <;> rfl

def finished (opts : Options) (st : Tar) (l : List Event) : Tar :=
  finishFile opts ({ st with size := 0 }.emit l) 512 none

theorem runBlocks_settled (hwrite : ∀ l bytes, env.write l bytes = none) (hskip : st.skipping = 0)
    (hlook : st.lookingForHeader = false) (h0 : st.size ≠ 0)
    (hlen : bs.length = (st.size + 511) / 512)
    (hsettled : Settled opts st) :
    runBlocks env opts st (bs ++ rest) = runBlocks env opts
      (finished opts st ((ownBlocks st.size bs).map fun b =>
        .wrote (convert opts st.batch st.fileType b))) rest := by
  induction bs generalizing st with
  | nil =>
    rw [List.length_nil] at hlen
    omega
  | cons b bs ih =>
    rw [List.length_cons] at hlen
    have hstep : blockStep env opts st b = dataBlock env opts st b := by
      rw [blockStep, if_neg (not_not.2 hskip), hlook, if_neg Bool.false_ne_true, if_neg h0]
    rw [List.cons_append, runBlocks_cons, hstep, dataBlock, prepare_settled hsettled]
    simp only [hwrite]
    let w := convert opts st.batch st.fileType (b.take (min st.size 512))
    let st₁ : Tar := { st with size := st.size - min st.size 512 }.emit [.wrote w]
    show afterBlock env opts (bs ++ rest) (.next (if st.size - min st.size 512 = 0 then
      { finishFile opts st₁ (min st.size 512) none with skipping := 0 } else st₁)) = _
    by_cases hlast : st.size ≤ 512
    · have hz : st.size - min st.size 512 = 0 := by omega
      obtain rfl : bs = [] := by
        rw [← List.length_eq_zero_iff]
        omega
      rw [if_pos hz]
      simp only [st₁, hz]
      rfl
    · have hmin : min st.size 512 = 512 := by omega
      have hnz : st.size - min st.size 512 ≠ 0 := by omega
      rw [if_neg hnz]
      have hsize : st₁.size = st.size - 512 := by
        show st.size - min st.size 512 = _
        rw [hmin]
      have hskip₁ : st₁.skipping = 0 := hskip
      have hlook₁ : st₁.lookingForHeader = false := hlook
      have hlen₁ : bs.length = (st₁.size + 511) / 512 := by
        rw [hsize]
        omega
      refine Eq.trans (ih hskip₁ hlook₁ hnz hlen₁ hsettled) ?_
      rw [hsize]
      simp [finished, finishFile, Tar.emit, ownBlocks, st₁, w]

theorem prepare_first (hfirst : st.firstBlock = true) (hasks : asks opts = true)
    (hbatch : (st.batch && !opts.toTty) = false) (b : List Byte) :
    prepare opts st b =
      (({ st with fileType := guessFileType b, firstBlock := false }.emit
          (if guessFileType b = FileType.unixText && opts.textDos then [.textMode] else []),
        convert opts st.batch (guessFileType b) b)) := by
  unfold prepare convert
  rw [hbatch, hfirst, show (opts.textDos || opts.textUnix || opts.toTty) = true from hasks]
  simp only [Bool.false_eq_true, if_false, Bool.and_self, if_true]
  generalize (if guessFileType b = FileType.unixText && opts.textDos then [Event.textMode]
    else []) = mark
  show (if (opts.textUnix || opts.toTty) && guessFileType b = FileType.dosText then _ else _) = _
  split <;> rfl

theorem dataBlock_congr {st st' : Tar} {b : List Byte} (hsize : st.size = st'.size)
    (h : prepare opts st (b.take (min st.size 512)) = prepare opts st' (b.take (min st.size 512))) :
    dataBlock env opts st b = dataBlock env opts st' b := by
  unfold dataBlock
  rw [← hsize]
  dsimp only
  rw [h]

/-- All the blocks of a file that has just been opened. -/
theorem runBlocks_file (hwrite : ∀ l bytes, env.write l bytes = none) (hskip : st.skipping = 0)
    (hlook : st.lookingForHeader = false) (h0 : st.size ≠ 0)
    (hlen : bs.length = (st.size + 511) / 512)
    (hfirst : st.firstBlock = true) (htype : st.fileType = .dosBinary) :
    ∃ fileType firstBlock, runBlocks env opts st (bs ++ rest) = runBlocks env opts
      (finished opts { st with fileType := fileType, firstBlock := firstBlock }
        (dataEvents opts st.batch (ownBlocks st.size bs))) rest := by
  have hne : (ownBlocks st.size bs).isEmpty = false := by
    cases bs with
    | nil =>
      rw [List.length_nil] at hlen
      omega
    | cons b bs => rfl
  have hsame : { st with fileType := .dosBinary, firstBlock := st.firstBlock } = st := by
    rw [← htype]
  by_cases hbatch : (st.batch && !opts.toTty) = true
  · refine ⟨.dosBinary, st.firstBlock, ?_⟩
    have hdata : dataEvents opts st.batch (ownBlocks st.size bs) =
        (ownBlocks st.size bs).map fun b => .wrote (convert opts st.batch st.fileType b) := by
      rw [dataEvents, ownType, hbatch, htype]
      simp
    rw [runBlocks_settled hwrite hskip hlook h0 hlen (.inl hbatch), hdata, hsame]
  · have hbatch : (st.batch && !opts.toTty) = false := by simpa using hbatch
    by_cases hasks : asks opts = true
    · cases bs with
      | nil =>
        rw [List.length_nil] at hlen
        omega
      | cons b bs =>
        let ft := guessFileType (b.take (min st.size 512))
        have hown : ownType opts st.batch (ownBlocks st.size (b :: bs)) = ft := by
          rw [ownType, hasks, hbatch]
          rfl
        let mark : List Event := if ft = FileType.unixText && opts.textDos then [.textMode] else []
        have hmark : (if !(ownBlocks st.size (b :: bs)).isEmpty && !(st.batch && !opts.toTty) &&
          opts.textDos &&
            ft = FileType.unixText then [Event.textMode] else []) = mark := by
          rw [hne, hbatch]
          simp [mark, Bool.and_comm]
        -- with its type known, the file goes on as from the start
        let st₀ : Tar := { st with fileType := ft, firstBlock := false,
                                   events := st.events ++ mark }
        have hstep : blockStep env opts st b = blockStep env opts st₀ b := by
          have hleft : blockStep env opts st b = dataBlock env opts st b := by
            rw [blockStep, if_neg (not_not.2 hskip), hlook, if_neg Bool.false_ne_true, if_neg h0]
          have hright : blockStep env opts st₀ b = dataBlock env opts st₀ b := by
            show (if st.skipping ≠ 0 then _ else if st.lookingForHeader then _ else if st.size =
              0 then _ else _) = _
            rw [if_neg (not_not.2 hskip), hlook, if_neg Bool.false_ne_true, if_neg h0]
          have hsettled : Settled opts st₀ := .inr (.inr rfl)
          rw [hleft, hright]
          have hsize : st.size = st₀.size := rfl
          refine dataBlock_congr hsize ?_
          rw [prepare_settled hsettled, prepare_first hfirst hasks hbatch]
          rfl
        refine ⟨ft, false, ?_⟩
        rw [List.cons_append, runBlocks_cons, hstep, ← runBlocks_cons, ← List.cons_append]
        have hskip₀ : st₀.skipping = 0 := hskip
        rw [runBlocks_settled hwrite hskip₀ hlook h0 hlen (.inr (.inr rfl)), dataEvents, hown,
          hmark]
        simp [finished, finishFile, Tar.emit, st₀]
    · have hasks : asks opts = false := by simpa using hasks
      have htext : opts.textDos = false := by
        simp only [asks, Bool.or_eq_false_iff] at hasks
        exact hasks.1.1
      have hdata : dataEvents opts st.batch (ownBlocks st.size bs) =
          (ownBlocks st.size bs).map fun b => .wrote (convert opts st.batch st.fileType b) := by
        rw [dataEvents, ownType, hasks, htype, htext]
        simp
      refine ⟨.dosBinary, st.firstBlock, ?_⟩
      rw [runBlocks_settled hwrite hskip hlook h0 hlen (.inr (.inl hasks)), hdata, hsame]

/-- A header comes next. -/
structure Ready (st : Tar) : Prop where
  looking : st.lookingForHeader = true
  skipping : st.skipping = 0
  batch : st.batch = false

def headed (st : Tar) (m : Member) (name : Name) : Tar :=
  { st with
    firstBlock := true, fileType := .dosBinary, lookingForHeader := false, batch := isBatch m.header
    mode := modeOf m.header, size := sizeOf m.header, ftime := ftimeOf m.header, changedName :=
      name }

theorem readHeader_member (h : Ready st) (hm : m.WellFormed opts) :
    readHeader env opts st m.header =
      openMember env opts (headed st m (env.newName st.events (memberName m.header)).1) m.header
        (env.newName st.events (memberName m.header)).2 := by
  have hsum : (!checksumOk m.header && !opts.ignoreCsum) = false := by
    obtain h | h := hm.checksum
    · rw [h]
      rfl
    · rw [h, Bool.not_true, Bool.and_false]
  have hsize : (if isLink m.header then 0 else (scanOctal 0 (m.header.drop 124)).toNat) =
    sizeOf m.header := rfl
  unfold readHeader
  rw [hm.file, if_neg Bool.false_ne_true, if_neg hm.named, hm.size, hm.mode, hm.ftime, hsum,
    if_neg Bool.false_ne_true, h.batch, Bool.false_or]
  dsimp only
  rw [hsize]
  rfl

theorem roundUp_eq (hm : m.WellFormed opts) : roundUp (sizeOf m.header) = 512 * m.data.length := by
  rw [hm.data, roundUp]
  omega

/-- The blocks of a file behind its header. -/
theorem runBlocks_opened (hwrite : ∀ l bytes, env.write l bytes = none) (hm : m.WellFormed opts)
    (hskip : st.skipping = 0) (name : Name) (l : List Event)
    (hhead : headerBlock env opts st m.header = .next (if sizeOf m.header = 0 then
      finishFile opts ((headed st m name).emit l) 512 none else (headed st m name).emit l))
    (hstep : blockStep env opts st m.header = headerBlock env opts st m.header) :
    ∃ st', Ready st' ∧ runBlocks env opts st (m.header :: m.data ++ rest) =
    runBlocks env opts st' rest ∧
      st'.events = st.events ++ (l ++ dataEvents opts (isBatch m.header)
        (ownBlocks (sizeOf m.header) m.data) ++
        if opts.toStdout then [] else [.finish name (ftimeOf m.header) (modeOf m.header)]) := by
  rw [List.cons_append, runBlocks_cons, hstep, hhead]
  by_cases h0 : sizeOf m.header = 0
  · have hnil : m.data = [] := by
      rw [← List.length_eq_zero_iff, hm.data, h0]
    rw [if_pos h0, hnil]
    refine ⟨finishFile opts ((headed st m name).emit l) 512 none, ⟨rfl, rfl, rfl⟩, rfl, ?_⟩
    simp [finishFile, Tar.emit, headed, ownBlocks, dataEvents]
  · rw [if_neg h0]
    let st₁ : Tar := (headed st m name).emit l
    have hskip₁ : st₁.skipping = 0 := hskip
    have hlook₁ : st₁.lookingForHeader = false := rfl
    have hsize₁ : st₁.size ≠ 0 := h0
    have hlen₁ : m.data.length = (st₁.size + 511) / 512 := hm.data
    have hfirst₁ : st₁.firstBlock = true := rfl
    have htype₁ : st₁.fileType = .dosBinary := rfl
    obtain ⟨fileType, firstBlock, hrun⟩ := runBlocks_file hwrite hskip₁ hlook₁ hsize₁ hlen₁ hfirst₁
      htype₁
    refine ⟨_, ⟨rfl, rfl, rfl⟩, hrun, ?_⟩
    simp [finished, finishFile, Tar.emit, st₁, headed]

theorem runBlocks_member (hwrite : ∀ l bytes, env.write l bytes = none) (h : Ready st)
    (hm : m.WellFormed opts)
    (hreg : Regular env opts st.events m) :
    ∃ st', Ready st' ∧ runBlocks env opts st (m.header :: m.data ++ rest) =
    runBlocks env opts st' rest ∧
      st'.events = st.events ++ memberEvents env opts st.events m := by
  have hstep : blockStep env opts st m.header = headerBlock env opts st m.header := by
    rw [blockStep, if_neg (not_not.2 h.skipping), if_pos h.looking]
  have hread : readHeader env opts st m.header = _ := readHeader_member h hm
  have hfits : ¬ maxSize < sizeOf m.header := Nat.not_lt.2 hm.fits
  have hround := roundUp_eq hm
  unfold Regular at hreg
  unfold memberEvents
  cases hname : env.newName st.events (memberName m.header) with
  | mk name written =>
    rw [hname] at hreg hread
    cases written with
    | false =>
      have hopen : openMember env opts (headed st m name) m.header false =
          if roundUp (sizeOf m.header) = 0 then .empty { headed st m name with skipping := 0, lookingForHeader := true }
          else .next { headed st m name with skipping := roundUp (sizeOf m.header) } := by
        unfold openMember
        rw [Bool.not_false, if_pos rfl]
        exact if_neg hfits
      rw [List.cons_append, runBlocks_cons, hstep, headerBlock, hread, hopen]
      by_cases hz : roundUp (sizeOf m.header) = 0
      · have hnil : m.data = [] := by
          rw [← List.length_eq_zero_iff]
          omega
        rw [if_pos hz, hnil]
        exact ⟨_, ⟨rfl, rfl, hreg⟩, rfl, (List.append_nil _).symm⟩
      · rw [if_neg hz]
        have hne : m.data ≠ [] := by
          intro hnil
          rw [hnil] at hround
          exact hz hround
        have hskip : ({ headed st m name with skipping := roundUp (sizeOf m.header) } : Tar).skipping =
            512 * m.data.length := hround
        refine ⟨_, ⟨rfl, rfl, ?_⟩, runBlocks_skip hskip hne, (List.append_nil _).symm⟩
        exact hreg
    | true =>
      dsimp only at hreg ⊢
      by_cases hdir : isDirectory opts name m.header = true
      · rw [if_pos hdir] at hreg ⊢
        have hopen : openMember env opts (headed st m name) m.header true =
            .next ({ headed st m name with
              changedName := if name.getLast? = some 0x2f then name.dropLast else name
              lookingForHeader := true }.emit
                [.directory (if name.getLast? = some 0x2f then name.dropLast else name)]) := by
          unfold openMember
          rw [Bool.not_true, if_neg Bool.false_ne_true]
          exact if_pos hdir
        rw [List.cons_append, runBlocks_cons, hstep, headerBlock, hread, hopen, hreg.2]
        let st' : Tar := { headed st m name with
          changedName := if name.getLast? = some 0x2f then name.dropLast else name
          lookingForHeader := true }.emit
            [.directory (if name.getLast? = some 0x2f then name.dropLast else name)]
        exact ⟨st', ⟨rfl, h.skipping, hreg.1⟩, rfl, rfl⟩
      · rw [if_neg hdir] at hreg ⊢
        have hopen : openMember env opts (headed st m name) m.header true =
            if !opts.toStdout then
              if (env.openFile st.events name).2 then .data ({ headed st m name with
                changedName := (env.openFile st.events name).1 }.emit
                  [.opened (env.openFile st.events name).1])
              else .next ({ headed st m name with
                changedName := (env.openFile st.events name).1
                skipping := roundUp (sizeOf m.header) }.emit
                  [.refused (env.openFile st.events name).1])
            else .data (headed st m name) := by
          unfold openMember
          rw [Bool.not_true, if_neg Bool.false_ne_true]
          refine (if_neg hdir).trans ?_
          exact if_neg hfits
        by_cases hout : opts.toStdout = true
        · have hhead : headerBlock env opts st m.header = .next (if sizeOf m.header = 0 then
              finishFile opts ((headed st m name).emit []) 512 none
                else (headed st m name).emit []) := by
            rw [headerBlock, hread, hopen, hout]
            simp [Tar.emit, headed]
          obtain ⟨st', hready, hrun, hev⟩ := runBlocks_opened hwrite hm h.skipping name
            [] hhead hstep
          refine ⟨st', hready, hrun, ?_⟩
          rw [hev, if_pos hout, if_pos hout]
          simp
        · have hout : opts.toStdout = false := by simpa using hout
          cases hfile : env.openFile st.events name with
          | mk name' ok =>
            rw [hfile] at hopen hreg
            rw [hout] at hopen
            cases ok with
            | true =>
              have hhead : headerBlock env opts st m.header = .next (if sizeOf m.header = 0 then
                  finishFile opts ((headed st m name').emit [.opened name']) 512 none
                  else (headed st m name').emit [.opened name']) := by
                rw [headerBlock, hread, hopen]
                rfl
              obtain ⟨st', hready, hrun, hev⟩ :=
                runBlocks_opened hwrite hm h.skipping name' [.opened name'] hhead hstep
              refine ⟨st', hready, hrun, ?_⟩
              rw [hev, hout]
              rfl
            | false =>
              obtain hs | hs | ⟨h0, hbat⟩ := hreg
              · rw [hs] at hout
                cases hout
              · cases hs
              · have hne : m.data ≠ [] := by
                  intro hnil
                  rw [hnil, List.length_nil] at hround
                  unfold roundUp at hround
                  omega
                rw [List.cons_append, runBlocks_cons, hstep, headerBlock, hread, hopen, hout]
                have hskip : ({ headed st m name with
                    changedName := name', skipping := roundUp (sizeOf m.header) }.emit
                      [.refused name']).skipping =
                      512 * m.data.length := hround
                exact ⟨_, ⟨rfl, rfl, hbat⟩, runBlocks_skip hskip hne, rfl⟩

/-- The blocks of an archive. -/
def archiveBlocks (ms : List Member) : List (List Byte) := ms.flatMap fun m => m.header :: m.data

theorem runBlocks_archive {ms : List Member} (hwrite : ∀ l bytes, env.write l bytes = none)
    (h : Ready st)
    (hms : ∀ m ∈ ms, m.WellFormed opts) (hreg : AllRegular env opts st.events ms) :
    ∃ st', Ready st' ∧ runBlocks env opts st (archiveBlocks ms ++ rest) =
    runBlocks env opts st' rest ∧
      st'.events = st.events ++ archiveEvents env opts st.events ms := by
  induction ms generalizing st with
  | nil => exact ⟨st, h, rfl, (List.append_nil _).symm⟩
  | cons m ms ih =>
    have hm := hms m List.mem_cons_self
    have hmember : ∃ st₁, Ready st₁ ∧
        runBlocks env opts st (m.header :: m.data ++ (archiveBlocks ms ++ rest)) =
          runBlocks env opts st₁ (archiveBlocks ms ++ rest) ∧
        st₁.events = st.events ++ memberEvents env opts st.events m :=
      runBlocks_member hwrite h hm hreg.1
    obtain ⟨st₁, hready, hrun, hev⟩ := hmember
    have hreg' := hreg.2
    rw [← hev] at hreg'
    obtain ⟨st₂, hready₂, hrun₂, hev₂⟩ := ih hready (fun m hm =>
      hms m (List.mem_cons_of_mem _ hm)) hreg'
    refine ⟨st₂, hready₂, ?_, ?_⟩
    · rw [← hrun₂, ← hrun]
      simp [archiveBlocks]
    · rw [hev₂, hev, archiveEvents, List.append_assoc]

/-- The end of an archive: nothing, or a block without a name. -/
def EndsHere (opts : Options) (tail : List (List Byte)) : Prop :=
  ∀ b, tail.head? = some b → b.headD 0 = 0 ∧ (isPaxHeader b && opts.sSwitch) = false

/-- The header of `a.txt`. -/
def aHeader (size chksum : List Byte) : List Byte :=
  pad 100 [0x61, 0x2e, 0x74, 0x78, 0x74] ++ pad 24 [0x36, 0x34,
    0x34] ++ pad 12 size ++ pad 12 [0x30] ++
    pad 8 chksum ++ pad 356 [0x30]

/-- `a.txt`, with 514 bytes. -/
def txtMember : Member :=
  ⟨aHeader [0x31, 0x30, 0x30, 0x32] [0x32, 0x32, 0x36, 0x30], [blankBlock, lineBlock]⟩

/-- `a.txt`, empty. -/
def emptyMember : Member := ⟨aHeader [0x30] [0x32, 0x30, 0x33, 0x35], []⟩

theorem scans_of_digits {text : List Byte}
    (h : (let text := text.dropWhile isspace
      (if text.head? = some 0x2d ∨ text.head? = some 0x2b then text.tail
        else text).takeWhile isOctal) ≠ []) :
    Scans text (scanOctal 0 text) := by
  intro old
  unfold scanOctal
  dsimp only at h ⊢
  rw [if_neg h, if_neg h]

theorem txtMember_wellFormed : txtMember.WellFormed plainOptions where
  header := by decide +kernel
  blocks := by decide +kernel
  named := by decide +kernel
  checksum := .inl (by decide +kernel)
  file := by decide +kernel
  size := scans_of_digits (by decide +kernel)
  ftime := scans_of_digits (by decide +kernel)
  mode := scans_of_digits (by decide +kernel)
  fits := by decide +kernel
  data := by decide +kernel

def rejecting : Env := { plainEnv with newName := fun l name => (name, l.isEmpty) }

/-- The first `write` fails. -/
def failingOnce : Env :=
  { plainEnv with write := fun l _ => if l.contains (.failed .other) then none else some .other }

def refusing : Env := { plainEnv with openFile := fun _ name => (name, false) }

end DjgppLibc.Djtar
