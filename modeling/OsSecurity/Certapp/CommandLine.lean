/-
The command line of certapp, and which directory a file is read in.

Files, their types and their directories are three vectors for each direction.  A directory is
pushed for every option of the main loop, also for `--in` and `--out`, which have no file: it
goes to the direction they are read in.  So the vectors are out of step after such an option,
and the i-th file is read in the directory of the i-th option.  That is the file's own exactly
where `Aligned` says so, and `Aligned` is about the arguments alone.
-/
import Mathlib.Data.List.Basic

namespace OsSecurity

open List Option

/-- `std::string` -/
abbrev CString := List Char

inductive CertStoreFileType where
  | EBinCertClients | EHumanCertClients | EBinFileCertStore | EHumanFileCertStore
  | EBinSwiCertStore | EHumanSwiCertStore

namespace Certapp

def OPT_PROGRESS : CString := "--progress=".toList
def OPT_ERRORS : CString := "--errors=".toList
def OPT_VERBOSE : CString := "--verbose".toList
def OPT_ALLOWDUPLICATES : CString := "--allowduplicates".toList
def OPT_CHDIR : CString := "--chdir=".toList
def OPT_IN : CString := "--in".toList
def OPT_OUT : CString := "--out".toList

/-- The options with a file, in the order in which they are looked for. -/
def fileOptions : List (CString × CertStoreFileType) :=
  [("--bcertclients=".toList, .EBinCertClients), ("--bcc=".toList, .EBinCertClients),
    ("--hcertclients=".toList, .EHumanCertClients), ("--hcc=".toList, .EHumanCertClients),
    ("--bfilecertstore=".toList, .EBinFileCertStore), ("--bca=".toList, .EBinFileCertStore),
    ("--hfilecertstore=".toList, .EHumanFileCertStore), ("--hca=".toList, .EHumanFileCertStore),
    ("--bswicertstore=".toList, .EBinSwiCertStore), ("--bswi=".toList, .EBinSwiCertStore),
    ("--hswicertstore=".toList, .EHumanSwiCertStore), ("--hswi=".toList, .EHumanSwiCertStore)]

inductive Direction where
  | input | output
  deriving DecidableEq

/-- The three vectors of a direction. -/
structure FileArguments where
  files : List CString
  dirs : List CString
  fileTypes : List CertStoreFileType

abbrev Vectors := Direction → FileArguments

namespace Vectors

def pushDir (d : Direction) (dir : CString) (v : Vectors) : Vectors :=
  Function.update v d { v d with dirs := (v d).dirs ++ [dir] }

def pushTypes (d : Direction) (types : List CertStoreFileType) (v : Vectors) : Vectors :=
  Function.update v d { v d with fileTypes := (v d).fileTypes ++ types }

def pushFile (d : Direction) (fileArg : CString) (v : Vectors) : Vectors :=
  Function.update v d { v d with files := (v d).files ++ [fileArg] }

end Vectors

structure CommandLine where
  vectors : Vectors
  aVerbose : Bool
  aPemOut : Bool
  aAllowDuplicates : Bool

def isHelp (arg : CString) : Bool := arg = "--help".toList || arg = "-h".toList

/-! ### The general options -/

/-- The files that the progress output and the error output go to. -/
structure LogFiles where
  progressFile : CString
  dbgFile : CString

/-- `none` where the file of `--progress=` or `--errors=` cannot be opened.  Two logs to one
file share its stream, and `-` is the standard output. -/
def setLog (opens : CString → Bool) (arg : CString) (logs : LogFiles) : Option LogFiles :=
  if OPT_PROGRESS.isPrefixOf arg then
    let thisFile := arg.drop OPT_PROGRESS.length
    if thisFile = logs.dbgFile ∨ thisFile = ['-'] ∨ opens thisFile then
      some { logs with progressFile := thisFile }
    else none
  else
    let thisFile := arg.drop OPT_ERRORS.length
    if thisFile = logs.progressFile ∨ thisFile = ['-'] ∨ opens thisFile then
      some { logs with dbgFile := thisFile }
    else none

/-- The loop over the general options.  It hands on the arguments from the first other one on,
and none where the function returns because of a log file. -/
def generalArguments (opens : CString → Bool) :
    List CString → LogFiles → CommandLine → CommandLine × Option (List CString)
  | [], _, c => (c, some [])
  | arg :: args, logs, c =>
      if arg = "--license".toList then generalArguments opens args logs c
      else if arg = OPT_VERBOSE then generalArguments opens args logs { c with aVerbose := true }
      else if arg = "--pemout".toList then
        generalArguments opens args logs { c with aPemOut := true }
      else if arg = OPT_ALLOWDUPLICATES then
        generalArguments opens args logs { c with aAllowDuplicates := true }
      else if OPT_PROGRESS.isPrefixOf arg || OPT_ERRORS.isPrefixOf arg then
        match setLog opens arg logs with
        | some logs => generalArguments opens args logs c
        | none => (c, none)
      else if isHelp arg then generalArguments opens args logs c
      else (c, some (arg :: args))

/-! ### The main loop -/

/-- One of the tests for the options with a file.  `got` has the types that are pushed, and
`fileArg` where `gotFile` is set. -/
def tryOption (arg : CString) (got : List CertStoreFileType × Option CString)
    (option : CString × CertStoreFileType) : List CertStoreFileType × Option CString :=
  if option.1.isPrefixOf arg then (got.1 ++ [option.2], some (arg.drop option.1.length)) else got

def readFileOption (arg : CString) : List CertStoreFileType × Option CString :=
  fileOptions.foldl (tryOption arg) ([], none)

/-- What follows the directory in a turn of the loop; `none` is `FatalError`. -/
def readArgument (arg : CString) (d : Direction) (v : Vectors) : Option (Direction × Vectors) :=
  let got := readFileOption arg
  let v := v.pushTypes d got.1
  if OPT_OUT.isPrefixOf arg then some (.output, v)
  else if OPT_IN.isPrefixOf arg then some (.input, v)
  else
    match got.2 with
    | some fileArg => some (d, v.pushFile d fileArg)
    | none => none

def mainArguments : List CString → Direction → Vectors → Option Vectors
  | [], _, v => some v
  | arg :: args, d, v =>
      if isHelp arg then mainArguments args d v
      else if OPT_CHDIR.isPrefixOf arg then
        let v := v.pushDir d (arg.drop OPT_CHDIR.length)
        match args with
        | [] => some v
        | arg :: args =>
          (readArgument arg d v).bind fun turn => mainArguments args turn.1 turn.2
      else
        (readArgument arg d (v.pushDir d ['.'])).bind fun turn => mainArguments args turn.1 turn.2

def emptyCommandLine : CommandLine := ⟨fun _ => ⟨[], [], []⟩, false, false, false⟩

def standardOutput : LogFiles := ⟨['-'], ['-']⟩

/-- `none` where the command line is refused. -/
def processCommandLine (opens : CString → Bool) (aArgv : List CString) : Option CommandLine :=
  match generalArguments opens (aArgv.drop 1) standardOutput emptyCommandLine with
  | (c, none) => some c
  | (c, some args) =>
    (mainArguments args .input c.vectors).map fun v => { c with vectors := v }

/-! ### What the arguments say -/

/-- The file of an argument that is one of the options, with its type. -/
def fileAmong (options : List (CString × CertStoreFileType)) (arg : CString) :
    Option (CertStoreFileType × CString) :=
  match options with
  | [] => none
  | option :: options =>
      if option.1.isPrefixOf arg then some (option.2, arg.drop option.1.length)
      else fileAmong options arg

def fileOption (arg : CString) : Option (CertStoreFileType × CString) := fileAmong fileOptions arg

def isSwitch (arg : CString) : Bool := OPT_OUT.isPrefixOf arg || OPT_IN.isPrefixOf arg

/-- The direction behind an argument. -/
def directionAfter (arg : CString) (d : Direction) : Direction :=
  if OPT_OUT.isPrefixOf arg then .output else if OPT_IN.isPrefixOf arg then .input else d

/-- The directory that the argument before an option gives it. -/
def dirAfter (before : Option CString) : CString :=
  match before with
  | some arg => if OPT_CHDIR.isPrefixOf arg then arg.drop OPT_CHDIR.length else ['.']
  | none => ['.']

/-- An option with a file, or one that switches the direction, and its directory. -/
structure Reading where
  file : Option (CertStoreFileType × CString)
  dir : CString

/-- The options that are read in a direction. -/
def readings (direction : Direction) : Option CString → Direction → List CString → List Reading
  | _, _, [] => []
  | before, d, arg :: args =>
      (if d = direction ∧ (isSwitch arg ∨ (fileOption arg).isSome) then
        [⟨fileOption arg, dirAfter before⟩] else []) ++
      readings direction (some arg) (directionAfter arg d) args

/-- A file with its own type and the directory of the `--chdir=` before it. -/
structure Entry where
  file : CString
  fileType : CertStoreFileType
  dir : CString

def Reading.entry (r : Reading) : Option Entry := r.file.map fun f => ⟨f.2, f.1, r.dir⟩

/-- The files of a direction. -/
def entries (direction : Direction) (args : List CString) : List Entry :=
  (readings direction none .input args).filterMap Reading.entry

/-- In each direction the i-th file has the directory of the i-th option. -/
def Aligned (args : List CString) : Prop :=
  ∀ direction, (entries direction args).map Entry.dir <+:
    (readings direction none .input args).map Reading.dir

/-- Each file of a direction has its place in the three vectors. -/
structure Paired (f : FileArguments) (expected : List Entry) : Prop where
  files : f.files = expected.map Entry.file
  fileTypes : f.fileTypes = expected.map Entry.fileType
  dirs : f.dirs.take f.files.length = expected.map Entry.dir

/-! ### At most one option fits an argument -/

def Apart (a b : CString) : Prop := ¬a <+: b ∧ ¬b <+: a

instance (a b : CString) : Decidable (Apart a b) := inferInstanceAs (Decidable (_ ∧ _))

theorem Apart.not_both {a b arg : CString} (h : Apart a b) (ha : a.isPrefixOf arg = true) :
    b.isPrefixOf arg = false := by
  refine Bool.eq_false_iff.mpr fun hb => ?_
  rcases prefix_or_prefix_of_prefix (List.isPrefixOf_iff_prefix.mp ha)
    (List.isPrefixOf_iff_prefix.mp hb) with hab | hba
  · exact h.1 hab
  · exact h.2 hba

theorem fileOptions_apart : fileOptions.Pairwise fun a b => Apart a.1 b.1 := by decide

section

variable {options : List (CString × CertStoreFileType)} {arg : CString}
  (h : ∀ option ∈ options, option.1.isPrefixOf arg = false)
include h

theorem fileAmong_eq_none : fileAmong options arg = none := by
  induction options with
  | nil => rfl
  | cons option options ih =>
      rw [fileAmong, h option mem_cons_self]
      exact ih fun o ho => h o (mem_cons_of_mem option ho)

theorem foldl_tryOption_of_none (got : List CertStoreFileType × Option CString) :
    options.foldl (tryOption arg) got = got := by
  induction options with
  | nil => rfl
  | cons option options ih =>
      rw [foldl_cons, tryOption, h option mem_cons_self]
      exact ih fun o ho => h o (mem_cons_of_mem option ho)

end

theorem foldl_tryOption {options : List (CString × CertStoreFileType)} (arg : CString)
    (hapart : options.Pairwise fun a b => Apart a.1 b.1) :
    options.foldl (tryOption arg) ([], none) =
      (((fileAmong options arg).map Prod.fst).toList, (fileAmong options arg).map Prod.snd) := by
  induction options with
  | nil => rfl
  | cons option options ih =>
      obtain ⟨hfirst, hrest⟩ := pairwise_cons.mp hapart
      rw [foldl_cons, tryOption, fileAmong]
      by_cases hfits : option.1.isPrefixOf arg = true
      · rw [if_pos hfits, if_pos hfits,
          foldl_tryOption_of_none fun o ho => (hfirst o ho).not_both hfits]
        rfl
      · rw [if_neg hfits, if_neg hfits, ih hrest]

theorem readFileOption_eq (arg : CString) : readFileOption arg =
    (((fileOption arg).map Prod.fst).toList, (fileOption arg).map Prod.snd) :=
  foldl_tryOption arg fileOptions_apart

theorem fileOption_eq_none {arg : CString} {a : CString} (ha : a.isPrefixOf arg = true)
    (hapart : ∀ option ∈ fileOptions, Apart a option.1) : fileOption arg = none :=
  fileAmong_eq_none fun option hoption => (hapart option hoption).not_both ha

theorem fileOption_of_switch {arg : CString} (h : isSwitch arg = true) : fileOption arg = none := by
  rcases Bool.or_eq_true_iff.mp h with hout | hin
  · exact fileOption_eq_none hout (by decide)
  · exact fileOption_eq_none hin (by decide)

theorem fileOption_of_chdir {arg : CString} (h : OPT_CHDIR.isPrefixOf arg = true) :
    fileOption arg = none := fileOption_eq_none h (by decide)

theorem isSwitch_of_chdir {arg : CString} (h : OPT_CHDIR.isPrefixOf arg = true) :
    isSwitch arg = false := by
  have hout : Apart OPT_CHDIR OPT_OUT := by decide
  have hin : Apart OPT_CHDIR OPT_IN := by decide
  simp [isSwitch, hout.not_both h, hin.not_both h]

/-- An option with a file, or one that switches, is no `--chdir=`. -/
theorem not_chdir {arg : CString} (h : isSwitch arg = true ∨ (fileOption arg).isSome = true) :
    ¬OPT_CHDIR.isPrefixOf arg = true := by
  intro hchdir
  rcases h with h | h
  · rw [isSwitch_of_chdir hchdir] at h
    cases h
  · rw [fileOption_of_chdir hchdir] at h
    cases h

/-! ### A turn and a run of the loop -/

/-- The vectors of a direction have grown by the readings. -/
structure Grown (f g : FileArguments) (rs : List Reading) : Prop where
  files : g.files = f.files ++ (rs.filterMap Reading.entry).map Entry.file
  fileTypes : g.fileTypes = f.fileTypes ++ (rs.filterMap Reading.entry).map Entry.fileType
  dirs : g.dirs = f.dirs ++ rs.map Reading.dir

/-- What an argument with the directory `dir` is read as. -/
def readingOf (direction d : Direction) (arg dir : CString) : List Reading :=
  if d = direction ∧ (isSwitch arg ∨ (fileOption arg).isSome) then [⟨fileOption arg, dir⟩] else []

variable {arg dir : CString} {d d' : Direction} {v v' : Vectors}

/-- One turn. -/
theorem readArgument_some (h : readArgument arg d (v.pushDir d dir) = some (d', v')) :
    (isSwitch arg = true ∨ (fileOption arg).isSome = true) ∧ d' = directionAfter arg d ∧
      ∀ direction, Grown (v direction) (v' direction) (readingOf direction d arg dir) := by
  unfold readArgument at h
  simp only [readFileOption_eq] at h
  by_cases hswitch : isSwitch arg = true
  · have hno := fileOption_of_switch hswitch
    have hturn : d' = directionAfter arg d ∧ v' = (v.pushDir d dir).pushTypes d [] := by
      simp only [hno, map_none, toList_none] at h
      by_cases hout : OPT_OUT.isPrefixOf arg = true
      · simp only [hout, if_true, Option.some.injEq, Prod.mk.injEq] at h
        exact ⟨by rw [← h.1, directionAfter, if_pos hout], h.2.symm⟩
      · have hin : OPT_IN.isPrefixOf arg = true := by simpa [isSwitch, hout] using hswitch
        rw [if_neg hout, if_pos hin] at h
        simp only [Option.some.injEq, Prod.mk.injEq] at h
        exact ⟨by rw [← h.1, directionAfter, if_neg hout, if_pos hin], h.2.symm⟩
    obtain ⟨hd', rfl⟩ := hturn
    refine ⟨Or.inl hswitch, hd', fun direction => ?_⟩
    by_cases hdir : d = direction
    · subst hdir
      constructor <;> simp [readingOf, hswitch, hno, Vectors.pushTypes, Vectors.pushDir,
        Reading.entry]
    · constructor <;> simp [readingOf, hdir, Ne.symm hdir, Vectors.pushTypes, Vectors.pushDir]
  · have hout : ¬OPT_OUT.isPrefixOf arg = true := fun e => hswitch (by simp [isSwitch, e])
    have hin : ¬OPT_IN.isPrefixOf arg = true := fun e => hswitch (by simp [isSwitch, e])
    rw [if_neg hout, if_neg hin] at h
    cases hfile : fileOption arg with
    | none =>
      rw [hfile] at h
      cases h
    | some file =>
      simp only [hfile, map_some, toList_some, Option.some.injEq, Prod.mk.injEq] at h
      obtain ⟨rfl, rfl⟩ := h
      refine ⟨Or.inr rfl, by rw [directionAfter, if_neg hout, if_neg hin], fun direction => ?_⟩
      by_cases hdir : d = direction
      · subst hdir
        constructor <;> simp [readingOf, hfile, Vectors.pushTypes, Vectors.pushDir,
          Vectors.pushFile, Reading.entry]
      · constructor <;> simp [readingOf, hdir, Ne.symm hdir, Vectors.pushTypes,
          Vectors.pushDir, Vectors.pushFile]

theorem readings_cons (direction : Direction) (before : Option CString) (d : Direction)
    (arg : CString) (args : List CString) : readings direction before d (arg :: args) =
      readingOf direction d arg (dirAfter before) ++
        readings direction (some arg) (directionAfter arg d) args := rfl

/-- An argument that is no option with a file and switches nothing is passed over. -/
theorem readings_cons_of_none {arg : CString} (hswitch : isSwitch arg = false)
    (hfile : fileOption arg = none) (direction : Direction) (before : Option CString)
    (d : Direction) (args : List CString) : readings direction before d (arg :: args) =
      readings direction (some arg) d args := by
  obtain ⟨hout, hin⟩ := Bool.or_eq_false_iff.mp hswitch
  rw [readings_cons, readingOf, if_neg (by simp [hswitch, hfile]), directionAfter,
    if_neg (Bool.eq_false_iff.mp hout), if_neg (Bool.eq_false_iff.mp hin)]
  rfl

theorem not_option_of_help {arg : CString} (h : isHelp arg = true) :
    isSwitch arg = false ∧ fileOption arg = none ∧ dirAfter (some arg) = ['.'] := by
  have hhelp : arg = "--help".toList ∨ arg = "-h".toList := by
    unfold isHelp at h
    rw [Bool.or_eq_true, decide_eq_true_iff, decide_eq_true_iff] at h
    exact h
  rcases hhelp with rfl | rfl
  · exact ⟨rfl, rfl, rfl⟩
  · exact ⟨by decide +kernel, rfl, rfl⟩

theorem Grown.trans {f g k : FileArguments} {rs rs' : List Reading} (h : Grown f g rs)
    (h' : Grown g k rs') : Grown f k (rs ++ rs') := by
  constructor
  · rw [h'.files, h.files, filterMap_append, map_append, List.append_assoc]
  · rw [h'.fileTypes, h.fileTypes, filterMap_append, map_append, List.append_assoc]
  · rw [h'.dirs, h.dirs, map_append, List.append_assoc]

/-- A directory that no option follows. -/
def withDirs (f : FileArguments) (extra : List CString) : FileArguments :=
  { f with dirs := f.dirs ++ extra }

/-- The whole loop.  A `--chdir=` that is the last argument leaves a directory behind. -/
theorem mainArguments_some : ∀ {args : List CString} {before : Option CString} {d : Direction}
    {v v' : Vectors}, dirAfter before = ['.'] → mainArguments args d v = some v' →
    ∀ direction, ∃ g extra, Grown (v direction) g (readings direction before d args) ∧
      v' direction = withDirs g extra
  | [], _, _, v, v', _, h, direction => by
      obtain rfl := Option.some.inj h
      exact ⟨v direction, [], ⟨by simp [readings], by simp [readings], by simp [readings]⟩,
        by simp [withDirs]⟩
  | arg :: args, before, d, v, v', hbefore, h, direction => by
      rw [mainArguments] at h
      by_cases hhelp : isHelp arg = true
      · obtain ⟨hswitch, hfile, hdot⟩ := not_option_of_help hhelp
        rw [if_pos hhelp] at h
        rw [readings_cons_of_none hswitch hfile]
        exact mainArguments_some hdot h direction
      · rw [if_neg hhelp] at h
        by_cases hchdir : OPT_CHDIR.isPrefixOf arg = true
        · rw [if_pos hchdir] at h
          rw [readings_cons_of_none (isSwitch_of_chdir hchdir) (fileOption_of_chdir hchdir)]
          cases args with
          | nil =>
            obtain rfl := Option.some.inj h
            by_cases hd : direction = d
            · subst hd
              refine ⟨v direction, [arg.drop OPT_CHDIR.length], ?_, ?_⟩
              · constructor <;> simp [readings]
              · simp [Vectors.pushDir, withDirs]
            · refine ⟨v direction, [], ?_, ?_⟩
              · constructor <;> simp [readings]
              · simp [Vectors.pushDir, withDirs, hd]
          | cons next args =>
            obtain ⟨⟨d', u⟩, hturn, hrest⟩ := bind_eq_some_iff.mp h
            obtain ⟨hoption, rfl, hgrown⟩ := readArgument_some hturn
            have hdot : dirAfter (some next) = ['.'] := if_neg (not_chdir hoption)
            have hdir : dirAfter (some arg) = arg.drop OPT_CHDIR.length := if_pos hchdir
            obtain ⟨g, extra, hg, hv'⟩ := mainArguments_some hdot hrest direction
            refine ⟨g, extra, ?_, hv'⟩
            rw [readings_cons, hdir]
            exact (hgrown direction).trans hg
        · rw [if_neg hchdir] at h
          obtain ⟨⟨d', u⟩, hturn, hrest⟩ := bind_eq_some_iff.mp h
          obtain ⟨hoption, rfl, hgrown⟩ := readArgument_some hturn
          have hdot : dirAfter (some arg) = ['.'] := if_neg (not_chdir hoption)
          obtain ⟨g, extra, hg, hv'⟩ := mainArguments_some hdot hrest direction
          refine ⟨g, extra, ?_, hv'⟩
          rw [readings_cons, hbefore]
          exact (hgrown direction).trans hg

/-! ### The pairs -/

/-- Where the files and their types are those of the readings, so are their directories if the
first of the directories pushed are those of the files. -/
theorem paired_iff {f : FileArguments} {rs : List Reading} {extra : List CString}
    (h : Grown ⟨[], [], []⟩ f rs) : Paired (withDirs f extra) (rs.filterMap Reading.entry) ↔
      (rs.filterMap Reading.entry).map Entry.dir <+: rs.map Reading.dir := by
  have hfiles : f.files = (rs.filterMap Reading.entry).map Entry.file := h.files
  have hdirs : f.dirs = rs.map Reading.dir := h.dirs
  have hlength : f.files.length ≤ (rs.map Reading.dir).length := by
    rw [hfiles, length_map, length_map]
    exact length_filterMap_le _ _
  have htake : (f.dirs ++ extra).take f.files.length = (rs.map Reading.dir).take f.files.length := by
    rw [hdirs, take_append_of_le_length hlength]
  rw [prefix_iff_eq_take, length_map, ← length_map (f := Entry.file), ← hfiles]
  constructor
  · intro hpaired
    exact (htake.symm.trans hpaired.dirs).symm
  · intro heq
    exact ⟨hfiles, h.fileTypes, htake.trans heq.symm⟩

/-- The arguments that reach the main loop. -/
def mainLoopArguments (opens : CString → Bool) (aArgv : List CString) : List CString :=
  (generalArguments opens (aArgv.drop 1) standardOutput emptyCommandLine).2.getD []

theorem generalArguments_vectors (opens : CString → Bool) (args : List CString) (logs : LogFiles)
    (c : CommandLine) : (generalArguments opens args logs c).1.vectors = c.vectors := by
  induction args generalizing logs c with
  | nil => rfl
  | cons arg args ih =>
      rw [generalArguments]
      repeat' split
      all_goals simp only [ih]

/-- **The i-th file has its own type and the directory of the `--chdir=` before it** in an
accepted command line exactly if the arguments are aligned. -/
theorem processCommandLine_paired {opens : CString → Bool} {aArgv : List CString}
    {c : CommandLine} (h : processCommandLine opens aArgv = some c) :
    (∀ direction, Paired (c.vectors direction)
      (entries direction (mainLoopArguments opens aArgv))) ↔
      Aligned (mainLoopArguments opens aArgv) := by
  refine forall_congr' fun direction => ?_
  have hempty := generalArguments_vectors opens (aArgv.drop 1) standardOutput emptyCommandLine
  unfold processCommandLine at h
  unfold mainLoopArguments
  -- the vectors have grown by the readings, and a directory may be left over
  have hgrown : ∃ g extra, Grown ⟨[], [], []⟩ g (readings direction none .input
      ((generalArguments opens (aArgv.drop 1) standardOutput emptyCommandLine).2.getD [])) ∧
      c.vectors direction = withDirs g extra := by
    generalize generalArguments opens (aArgv.drop 1) standardOutput emptyCommandLine = read at *
    obtain ⟨flags, rest⟩ := read
    cases rest with
    | none =>
      obtain rfl := Option.some.inj h
      refine ⟨⟨[], [], []⟩, [], ⟨rfl, rfl, rfl⟩, ?_⟩
      rw [hempty]
      rfl
    | some args =>
      obtain ⟨v, hv, rfl⟩ := map_eq_some_iff.mp h
      have hdot : dirAfter none = ['.'] := rfl
      have hrun := mainArguments_some hdot hv direction
      rw [hempty] at hrun
      exact hrun
  obtain ⟨g, extra, hg, hc⟩ := hgrown
  rw [hc]
  exact paired_iff hg

/-- A directory for the second of two input files, and an output file. -/
def chdirBeforeFile : List CString :=
  ["certapp", "--bcc=a", "--chdir=dir", "--hca=b", "--out", "--bswi=c"].map String.toList

theorem processCommandLine_paired_chdir :
    ∃ c, processCommandLine (fun _ => true) chdirBeforeFile = some c ∧
      ∀ direction, Paired (c.vectors direction)
        (entries direction (mainLoopArguments (fun _ => true) chdirBeforeFile)) := by
  refine ⟨_, rfl, (processCommandLine_paired rfl).mpr fun direction => ?_⟩
  cases direction with
  | input => decide
  | output => decide

/-- A directory and a file behind `--in`: the directory of `--in` is the file's. -/
def chdirBehindIn : List CString :=
  ["certapp", "--in", "--chdir=dir", "--hca=a"].map String.toList

theorem not_paired_chdirBehindIn :
    ∃ c, processCommandLine (fun _ => true) chdirBehindIn = some c ∧
      (c.vectors .input).files = ["a".toList] ∧
      (c.vectors .input).dirs = [".".toList, "dir".toList] ∧
      ¬∀ direction, Paired (c.vectors direction)
        (entries direction (mainLoopArguments (fun _ => true) chdirBehindIn)) := by
  refine ⟨_, rfl, rfl, rfl, fun h => ?_⟩
  exact absurd (h .input).dirs (by decide)

end Certapp

end OsSecurity
