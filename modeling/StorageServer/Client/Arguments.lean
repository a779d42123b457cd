import StorageServer.Client.FileRequests
import StorageServer.Common.Integers
import Mathlib.Data.List.Forall2

/-! The command line of the client: how `getopt` takes the arguments apart, and how the options are
read and kept. The option string begins with a dash, so that `getopt` returns what is not an option
in its place. -/
namespace StorageServer.Client
open Common

/-! ### getopt -/

/-- The letters of the option string `-hpf:w:W:D:r:R::d:t:l:u:c:L:a:`. -/
inductive Letter
  | h | p | f | w | W | D | r | R | d | t | l | u | c | L | a
  deriving DecidableEq

def letters : List Letter := [.h, .p, .f, .w, .W, .D, .r, .R, .d, .t, .l, .u, .c, .L, .a]

def Letter.byte : Letter → UInt8
  | h => 104
  | p => 112
  | f => 102
  | w => 119
  | W => 87
  | D => 68
  | r => 114
  | R => 82
  | d => 100
  | t => 116
  | l => 108
  | u => 117
  | c => 99
  | L => 76
  | a => 97

def Letter.ofByte (byte : UInt8) : Option Letter := letters.find? fun letter => letter.byte = byte

/-- One colon after a letter requires an argument, two allow one in the same element. -/
inductive HasArg
  | no
  | required
  | optional

def Letter.hasArg : Letter → HasArg
  | h | p => .no
  | R => .optional
  | f | w | W | D | r | d | t | l | u | c | L | a => .required

/-- What `getopt` returns: a letter with `optarg`, 1 with an argument that is no option, or `?`. -/
inductive Opt
  | letter (letter : Letter) (optarg : Option CString)
  | argument (optarg : CString)
  | unknown

/-- The letters of an element after its dash, and the one at its end that lacks its argument. -/
def readLetters : CString → List Opt × Option Letter
  | [] => ([], none)
  | byte::nextchar =>
    match Letter.ofByte byte with
    | none => ((readLetters nextchar).1.cons .unknown, (readLetters nextchar).2)
    | some letter =>
      match letter.hasArg with
      | .no => ((readLetters nextchar).1.cons (.letter letter none), (readLetters nextchar).2)
      | .required =>
        if nextchar = [] then ([], some letter) else ([.letter letter (some nextchar)], none)
      | .optional =>
        ([.letter letter (if nextchar = [] then none else some nextchar)], none)

/-- What `getopt` returns one after the other. A letter may wait for the next element, whatever
that is; two dashes end the options. -/
def getoptFrom : Option Letter → List CString → List Opt
  | none, [] => []
  | some _, [] => [.unknown]
  | some letter, arg::argv => .letter letter (some arg) :: getoptFrom none argv
  | none, arg::argv =>
    if arg = [45, 45] then []
    else
      match arg with
      | 45::byte::nextchar =>
        let (opts, waiting) := readLetters (byte::nextchar)
        opts ++ getoptFrom waiting argv
      | _ => .argument arg :: getoptFrom none argv

/-- `argv` is without the name of the program. -/
def getopt (argv : List CString) : List Opt := getoptFrom none argv

/-! ### Options -/

abbrev maxOptionsCount : ℕ := 512

abbrev intMax : ℤ := 2^31 - 1

/-- What `parseParam` makes of an option. -/
inductive Param
  | help
  | log
  | socket (filename : CString)
  | argument (content : CString)
  | kept (option : CmdLineOpt)

/-- The filenames between the commas. -/
def splitFiles (value : CString) : List CString := value.splitOn 44

def parseWriteDir (value : CString) : Option CmdLineOpt :=
  match value.dropWhile (· ≠ 44) with
  | [] => some (.writeDirReq intMax value)
  | _::110::61::digit::digits =>
    let val := parsePositiveInteger (digit::digits)
    if val < 0 then none else some (.writeDirReq val (value.takeWhile (· ≠ 44)))
  | _ => none

def parseNumber (option : ℤ → CmdLineOpt) (value : CString) : Option CmdLineOpt :=
  let val := parsePositiveInteger value
  if val < 0 then none else some (option val)

/-- `none` is an error. A letter that requires an argument has one. -/
def parseParam : Opt → Option Param
  | .unknown => none
  | .argument content => some (.argument content)
  | .letter .h _ => some .help
  | .letter .p _ => some .log
  | .letter .R _ => some (.kept (.readRandReq 0))
  | .letter _ none => none
  | .letter .f (some value) => some (.socket value)
  | .letter .D (some value) => some (.kept (.writeSave value))
  | .letter .d (some value) => some (.kept (.readSave value))
  | .letter .w (some value) => (parseWriteDir value).map .kept
  | .letter .W (some value) => some (.kept (.writeFileReq (splitFiles value)))
  | .letter .r (some value) => some (.kept (.readFileReq (splitFiles value)))
  | .letter .l (some value) => some (.kept (.lockFileReq (splitFiles value)))
  | .letter .u (some value) => some (.kept (.unlockFileReq (splitFiles value)))
  | .letter .c (some value) => some (.kept (.removeFileReq (splitFiles value)))
  | .letter .a (some value) => some (.kept (.appendDataReq (splitFiles value)))
  | .letter .L (some value) => (parseNumber .changeLogLevel value).map .kept
  | .letter .t (some value) => (parseNumber .wait value).map .kept

structure ClientState where
  gSocketFilename : CString
  gIsExtendedLogEnabled : Bool
  options : List CmdLineOpt

def initializeClient : ClientState where
  gSocketFilename := ascii "../cs_sock"
  gIsExtendedLogEnabled := false
  options := []

/-- The number in `n=12`. -/
def parseReadRand (content : CString) : Option ℤ :=
  match content with
  | 110::61::digit::digits =>
    let val := parsePositiveInteger (digit::digits)
    if val < 0 then none else some val
  | _ => none

/-- An argument belongs to the last option that has been kept. It is `none` if there is no such
option, and the code looks for it before the beginning of the array. -/
def handleOptArgument (options : List CmdLineOpt) (content : CString) :
    Option (Res × List CmdLineOpt) :=
  match options.getLast?, parseReadRand content with
  | none, _ => none
  | some (.readRandReq _), some val =>
    some (.ok, options.dropLast ++ [.readRandReq (BitVec.ofInt 32 val)])
  | some _, _ => some (.error, options)

inductive Parsed
  | ok (state : ClientState)
  | error (state : ClientState)
  /-- The usage is printed and the process exits. -/
  | exit
  | outOfBounds

/-- The loop of `parseArguments`. It does not look at what `handleOptArgument` returns. -/
def parseOpts : List Opt → ClientState → Parsed
  | [], state => .ok state
  | opt::opts, state =>
    if state.options.length = maxOptionsCount then .ok state
    else
      match parseParam opt with
      | none => .error state
      | some .help => .exit
      | some .log => parseOpts opts { state with gIsExtendedLogEnabled := true }
      | some (.socket filename) => parseOpts opts { state with gSocketFilename := filename }
      | some (.argument content) =>
        match handleOptArgument state.options content with
        | none => .outOfBounds
        | some (_, options) => parseOpts opts { state with options := options }
      | some (.kept option) => parseOpts opts { state with options := state.options ++ [option] }

def parseArguments (argv : List CString) : Parsed := parseOpts (getopt argv) initializeClient

/-! ### Command lines -/

/-- An integer that fits into an `int` and is not negative, in decimal. -/
def Number (text : CString) (val : ℤ) : Prop := Decimal text val ∧ 0 ≤ val ∧ val ≤ intMax

def FileRequest.letter : FileRequest → Letter
  | write => .W
  | read => .r
  | lock => .l
  | unlock => .u
  | remove => .c

/-- The letter and the argument that stand for an option. -/
inductive Denotes : CmdLineOpt → Letter → CString → Prop
  | writeSave {dirname} : Denotes (.writeSave dirname) .D dirname
  | readSave {dirname} : Denotes (.readSave dirname) .d dirname
  | writeDir {dirname} (hd : 44 ∉ dirname) : Denotes (.writeDirReq intMax dirname) .w dirname
  | writeDirMax {dirname text val} (hd : 44 ∉ dirname) (ht : Number text val) :
    Denotes (.writeDirReq val dirname) .w (dirname ++ 44::110::61::text)
  | files {k : FileRequest} {files} (hne : files ≠ []) (hf : ∀ file ∈ files, 44 ∉ file) :
    Denotes (k.option files) k.letter ([44].intercalate files)
  | appendData {files} (hne : files ≠ []) (hf : ∀ file ∈ files, 44 ∉ file) :
    Denotes (.appendDataReq files) .a ([44].intercalate files)
  | wait {text val} (ht : Number text val) : Denotes (.wait val) .t text
  | changeLogLevel {text val} (ht : Number text val) : Denotes (.changeLogLevel val) .L text

/-- A letter is followed by its argument in the same element or in the next one. -/
inductive Spelled (letter : Letter) (text : CString) : List CString → Prop
  | apart : Spelled letter text [[45, letter.byte], text]
  | joined (hne : text ≠ []) : Spelled letter text [45::letter.byte::text]

inductive Setting
  | log
  | socket (filename : CString)
  | option (option : CmdLineOpt)

def Setting.kept : Setting → Option CmdLineOpt
  | log | socket _ => none
  | option o => some o

/-- The elements of the command line that stand for a setting. What is attached to `-R` is not
looked at; its number follows in an element of its own. -/
inductive Written : Setting → List CString → Prop
  | log : Written .log [[45, Letter.p.byte]]
  | socket {filename args} (hs : Spelled .f filename args) : Written (.socket filename) args
  | option {o letter text args} (hd : Denotes o letter text) (hs : Spelled letter text args) :
    Written (.option o) args
  | readRand {text} (h0 : 0 ∉ text) :
    Written (.option (.readRandReq 0)) [45::Letter.R.byte::text]
  | readRandMax {text val} (ht : Number text val) :
    Written (.option (.readRandReq (BitVec.ofInt 32 val))) [[45, Letter.R.byte], 110::61::text]

def ClientState.apply (state : ClientState) : Setting → ClientState
  | .log => { state with gIsExtendedLogEnabled := true }
  | .socket filename => { state with gSocketFilename := filename }
  | .option o => { state with options := state.options ++ [o] }

section
variable {letter : Letter} {text : CString} {val : ℤ} {args rest : List CString}
  {opts : List Opt} {state : ClientState} {o : CmdLineOpt} {x : Setting}

theorem ofByte_byte (letter : Letter) : Letter.ofByte letter.byte = some letter := by
  cases letter <;> rfl

theorem byte_ne_dash (letter : Letter) : letter.byte ≠ 45 := by
  cases letter <;> decide

theorem Number.parse (h : Number text val) : parsePositiveInteger text = val ∧ text ≠ [] := by
  obtain ⟨hd, hpos, hmax⟩ := h
  change val ≤ 2^31 - 1 at hmax
  refine ⟨?_, (strtol_of_decimal hd).2⟩
  have hmod : val % 2^32 = val := Int.emod_eq_of_lt hpos (by omega)
  rw [parsePositiveInteger_of_long hd (by omega) (by omega), toInt_of_lt (by omega), hmod]

theorem parseNumber_eq (option : ℤ → CmdLineOpt) (h : Number text val) :
    parseNumber option text = some (option val) := by
  rw [parseNumber, h.parse.1]
  exact if_neg (Int.not_lt.mpr h.2.1)

theorem parseWriteDir_eq {dirname : CString} (hd : 44 ∉ dirname) :
    parseWriteDir dirname = some (.writeDirReq intMax dirname) := by
  have hdrop : dirname.dropWhile (· ≠ 44) = [] :=
    List.dropWhile_eq_nil_iff.mpr fun b hb => decide_eq_true fun h => hd (h ▸ hb)
  rw [parseWriteDir, hdrop]

theorem parseWriteDir_max {dirname : CString} (hd : 44 ∉ dirname) (h : Number text val) :
    parseWriteDir (dirname ++ 44::110::61::text) = some (.writeDirReq val dirname) := by
  have hpos : ∀ b ∈ dirname, decide (b ≠ 44) = true := fun b hb =>
    decide_eq_true fun h => hd (h ▸ hb)
  obtain ⟨hval, hne⟩ := h.parse
  obtain ⟨digit, digits, rfl⟩ := List.exists_cons_of_ne_nil hne
  rw [parseWriteDir, List.dropWhile_append_of_pos hpos, List.takeWhile_append_of_pos hpos]
  change (if parsePositiveInteger (digit::digits) < 0 then none else _) = _
  rw [hval, if_neg (Int.not_lt.mpr h.2.1)]
  change some (CmdLineOpt.writeDirReq val (dirname ++ [])) = _
  rw [List.append_nil]

theorem parseParam_files (k : FileRequest) (value : CString) :
    parseParam (.letter k.letter (some value)) = some (.kept (k.option (splitFiles value))) := by
  cases k <;> rfl

/-- An option is read back from its argument. -/
theorem Denotes.parse (h : Denotes o letter text) :
    letter.hasArg = .required ∧ parseParam (.letter letter (some text)) = some (.kept o) := by
  have hsplit : ∀ files : List CString, files ≠ [] → (∀ file ∈ files, 44 ∉ file) →
      splitFiles ([44].intercalate files) = files := fun files hne hf =>
    List.splitOn_intercalate 44 hf hne
  cases h with
  | writeSave | readSave => exact ⟨rfl, rfl⟩
  | writeDir hd => exact ⟨rfl, congrArg (Option.map Param.kept) (parseWriteDir_eq hd)⟩
  | writeDirMax hd ht => exact ⟨rfl, congrArg (Option.map Param.kept) (parseWriteDir_max hd ht)⟩
  | @files k files hne hf =>
    rw [parseParam_files, hsplit files hne hf]
    exact ⟨by cases k <;> rfl, rfl⟩
  | appendData hne hf =>
    exact ⟨rfl, congrArg (fun files => some (Param.kept (.appendDataReq files))) (hsplit _ hne hf)⟩
  | wait ht | changeLogLevel ht =>
    exact ⟨rfl, congrArg (Option.map Param.kept) (parseNumber_eq _ ht)⟩

theorem getopt_dash (letter : Letter) (nextchar : CString) :
    getoptFrom none ((45::letter.byte::nextchar) :: rest) =
      (readLetters (letter.byte::nextchar)).1 ++
        getoptFrom (readLetters (letter.byte::nextchar)).2 rest := by
  rw [getoptFrom, if_neg]
  intro h
  exact byte_ne_dash letter (List.cons.inj (List.cons.inj h).2).1

theorem Spelled.getopt (h : Spelled letter text args) (hreq : letter.hasArg = .required) :
    getoptFrom none (args ++ rest) = .letter letter (some text) :: getoptFrom none rest := by
  have hread : ∀ nextchar, readLetters (letter.byte::nextchar) =
      if nextchar = [] then ([], some letter) else ([.letter letter (some nextchar)], none) := by
    intro nextchar
    rw [readLetters, ofByte_byte]
    dsimp only
    rw [hreq]
  cases h with
  | apart =>
    rw [List.cons_append, getopt_dash, hread, if_pos rfl]
    rfl
  | joined hne =>
    rw [List.cons_append, getopt_dash, hread, if_neg hne]
    rfl

theorem parseOpts_kept {opt : Opt} (hlt : state.options.length < maxOptionsCount)
    (hp : parseParam opt = some (.kept o)) :
    parseOpts (opt::opts) state = parseOpts opts (state.apply (.option o)) := by
  rw [parseOpts, if_neg hlt.ne, hp]
  rfl

theorem parseReadRand_eq (h : Number text val) : parseReadRand (110::61::text) = some val := by
  obtain ⟨hval, hne⟩ := h.parse
  obtain ⟨digit, digits, rfl⟩ := List.exists_cons_of_ne_nil hne
  rw [parseReadRand, hval]
  exact if_neg (Int.not_lt.mpr h.2.1)

theorem handleOptArgument_readRand (options : List CmdLineOpt) (n : BitVec 32) {content : CString}
    (h : parseReadRand content = some val) :
    handleOptArgument (options ++ [.readRandReq n]) content =
      some (.ok, options ++ [.readRandReq (BitVec.ofInt 32 val)]) := by
  rw [handleOptArgument, List.getLast?_concat, h, List.dropLast_concat]

theorem parseOpts_max (hlt : state.options.length + 1 < maxOptionsCount) (h : Number text val) :
    parseOpts (.argument (110::61::text) :: opts) (state.apply (.option (.readRandReq 0))) =
      parseOpts opts (state.apply (.option (.readRandReq (BitVec.ofInt 32 val)))) := by
  have hlen : (state.apply (.option (.readRandReq 0))).options.length ≠ maxOptionsCount := by
    simp only [ClientState.apply, List.length_append, List.length_singleton]
    exact hlt.ne
  have hhandle := handleOptArgument_readRand state.options 0 (parseReadRand_eq h)
  rw [parseOpts, if_neg hlen]
  simp only [parseParam, ClientState.apply]
  rw [hhandle]

/-- A setting is read back from its elements. -/
theorem Written.parse (h : Written x args)
    (hlt : state.options.length + x.kept.toList.length < maxOptionsCount) :
    parseOpts (getoptFrom none (args ++ rest)) state =
      parseOpts (getoptFrom none rest) (state.apply x) := by
  have hne : state.options.length ≠ maxOptionsCount := by omega
  cases h with
  | log =>
    rw [List.cons_append, getopt_dash]
    change parseOpts (.letter .p none :: getoptFrom none rest) state = _
    rw [parseOpts, if_neg hne]
    rfl
  | socket hs =>
    rw [hs.getopt rfl, parseOpts, if_neg hne]
    rfl
  | option hd hs =>
    obtain ⟨hreq, hparse⟩ := hd.parse
    rw [hs.getopt hreq]
    exact parseOpts_kept (by omega) hparse
  | readRand =>
    rw [List.cons_append, getopt_dash]
    exact parseOpts_kept (by omega) rfl
  | @readRandMax text val ht =>
    rw [List.cons_append, getopt_dash]
    change parseOpts (.letter .R none :: .argument (110::61::text) :: getoptFrom none rest)
      state = _
    rw [parseOpts_kept (by omega) rfl]
    exact parseOpts_max hlt ht

theorem parseOpts_written {settings : List Setting} {argvs : List (List CString)}
    (h : List.Forall₂ Written settings argvs)
    (hlt : state.options.length + (settings.filterMap Setting.kept).length < maxOptionsCount) :
    parseOpts (getopt argvs.flatten) state = .ok (settings.foldl ClientState.apply state) := by
  induction h generalizing state with
  | nil => rfl
  | @cons x args settings argvs hx _ ih =>
    have hlen : (state.apply x).options.length = state.options.length + x.kept.toList.length := by
      cases x with
      | log | socket => rfl
      | option => exact List.length_append
    have hcount : ((x::settings).filterMap Setting.kept).length =
        x.kept.toList.length + (settings.filterMap Setting.kept).length := by
      cases x with
      | log | socket => exact (Nat.zero_add _).symm
      | option => exact Nat.add_comm ..
    rw [List.flatten_cons, getopt, hx.parse (by omega)]
    exact ih (by omega)

/-- A command line with less than the greatest number of options is read as it is written. -/
theorem parseArguments_written {settings : List Setting} {argvs : List (List CString)}
    (h : List.Forall₂ Written settings argvs)
    (hlt : (settings.filterMap Setting.kept).length < maxOptionsCount) :
    parseArguments argvs.flatten = .ok (settings.foldl ClientState.apply initializeClient) :=
  parseOpts_written h ((Nat.zero_add _).symm ▸ hlt)

end

/-- A server socket, two files with a directory for the ejected ones, three files to read, and any
number of files although five are asked for. -/
theorem parseArguments_written_files :
    parseArguments [ascii "-fsock", ascii "-p", ascii "-W", ascii "a,b", ascii "-Dout", ascii "-R",
      ascii "n=3", ascii "-Rn=5"] =
    .ok ⟨ascii "sock", true, [.writeFileReq [ascii "a", ascii "b"], .writeSave (ascii "out"),
      .readRandReq 3, .readRandReq 0]⟩ := by
  have hthree : Number (ascii "3") 3 :=
    ⟨⟨[], .none, ascii "3", rfl, nofun, by decide, List.all_eq_true.mp (by decide), rfl⟩,
      by decide, by decide⟩
  have hfiles : Denotes (.writeFileReq [ascii "a", ascii "b"]) .W (ascii "a,b") :=
    @Denotes.files .write _ (by decide) (by decide)
  have h : List.Forall₂ Written
      [.socket (ascii "sock"), .log, .option (.writeFileReq [ascii "a", ascii "b"]),
        .option (.writeSave (ascii "out")), .option (.readRandReq 3), .option (.readRandReq 0)]
      [[ascii "-fsock"], [ascii "-p"], [ascii "-W", ascii "a,b"], [ascii "-Dout"],
        [ascii "-R", ascii "n=3"], [ascii "-Rn=5"]] :=
    .cons (.socket (.joined (by decide))) <| .cons .log <| .cons (.option hfiles .apart) <|
      .cons (.option .writeSave (.joined (by decide))) <| .cons (.readRandMax hthree) <|
      .cons (@Written.readRand (ascii "n=5") (by decide)) .nil
  exact parseArguments_written h (by decide)

/-! ### Every command line -/

section
variable {argv : List CString} {opts : List Opt} {state : ClientState} {options : List CmdLineOpt}
  {content : CString}

/-- An argument without an option before it has nowhere to go, one after `-R` may give a number, and
any other is ignored. -/
theorem handleOptArgument_cases (options : List CmdLineOpt) (content : CString) :
    options = [] ∧ handleOptArgument options content = none ∨
    (∃ res, handleOptArgument options content = some (res, options)) ∧ options ≠ [] ∨
    ∃ before n val, options = before ++ [.readRandReq n] ∧ parseReadRand content = some val ∧
      handleOptArgument options content =
        some (.ok, before ++ [.readRandReq (BitVec.ofInt 32 val)]) := by
  rcases options.eq_nil_or_concat' with rfl | ⟨before, o, rfl⟩
  · exact .inl ⟨rfl, rfl⟩
  · have hne : before ++ [o] ≠ [] := by simp
    have hlast : (before ++ [o]).getLast? = some o := List.getLast?_concat
    cases hval : parseReadRand content with
    | none =>
      refine .inr (.inl ⟨⟨.error, ?_⟩, hne⟩)
      rw [handleOptArgument, hlast, hval]
      cases o <;> rfl
    | some val =>
      cases o with
      | readRandReq n =>
        exact .inr (.inr ⟨before, n, val, rfl, rfl, handleOptArgument_readRand before n hval⟩)
      | _ =>
        refine .inr (.inl ⟨⟨.error, ?_⟩, hne⟩)
        rw [handleOptArgument, hlast]

theorem parseOpts_in_bounds (h : state.options ≠ []) : parseOpts opts state ≠ .outOfBounds := by
  induction opts generalizing state with
  | nil => exact nofun
  | cons opt opts ih =>
    rw [parseOpts]
    split_ifs
    · exact nofun
    · cases parseParam opt with
      | none => exact nofun
      | some param =>
        cases param with
        | help => exact nofun
        | log | socket => exact ih h
        | kept o => exact ih (by simp)
        | argument content =>
          dsimp only
          rcases handleOptArgument_cases state.options content with
            ⟨hnil, -⟩ | ⟨⟨res, hhandle⟩, -⟩ | ⟨before, n, val, -, -, hhandle⟩
          · exact absurd hnil h
          · rw [hhandle]
            exact ih h
          · rw [hhandle]
            exact ih (by simp)

/-- An option that is handled at once and lets the parsing go on. -/
def Immediate (opt : Opt) : Prop :=
  parseParam opt = some .log ∨ ∃ filename, parseParam opt = some (.socket filename)

/-- An argument before every option that is kept. -/
def Misplaced (opts : List Opt) : Prop := ∃ before content after,
  opts = before ++ .argument content :: after ∧ ∀ opt ∈ before, Immediate opt

theorem misplaced_cons (opt : Opt) (opts : List Opt) : Misplaced (opt::opts) ↔
    (∃ content, opt = .argument content) ∨ Immediate opt ∧ Misplaced opts := by
  constructor
  · rintro ⟨before, content, after, heq, hbefore⟩
    cases before with
    | nil => exact .inl ⟨content, (List.cons.inj heq).1⟩
    | cons first before =>
      obtain ⟨rfl, rfl⟩ := List.cons.inj heq
      rw [List.forall_mem_cons] at hbefore
      exact .inr ⟨hbefore.1, before, content, after, rfl, hbefore.2⟩
  · rintro (⟨content, rfl⟩ | ⟨hopt, before, content, after, rfl, hbefore⟩)
    · exact ⟨[], content, opts, rfl, nofun⟩
    · exact ⟨opt::before, content, after, rfl, List.forall_mem_cons.mpr ⟨hopt, hbefore⟩⟩

theorem parseParam_argument {opt : Opt} (h : parseParam opt = some (.argument content)) :
    opt = .argument content := by
  cases opt with
  | unknown => cases h
  | argument =>
    cases h
    rfl
  | letter letter optarg =>
    exfalso
    cases letter <;> cases optarg <;> simp [parseParam] at h

theorem parseOpts_outOfBounds (h : state.options = []) :
    parseOpts opts state = .outOfBounds ↔ Misplaced opts := by
  induction opts generalizing state with
  | nil => exact ⟨nofun, fun ⟨before, _, _, heq, _⟩ => by cases before <;> cases heq⟩
  | cons opt opts ih =>
    have hlen : state.options.length ≠ maxOptionsCount := by
      rw [h]
      decide
    have hargument : (∃ content, opt = .argument content) ↔
        ∃ content, parseParam opt = some (.argument content) :=
      exists_congr fun content => ⟨fun h => h ▸ rfl, parseParam_argument⟩
    rw [misplaced_cons, hargument, parseOpts, if_neg hlen, Immediate]
    cases parseParam opt with
    | none => simp
    | some param =>
      cases param with
      | help => simp
      | log => simpa using @ih { state with gIsExtendedLogEnabled := true } h
      | socket filename => simpa using @ih { state with gSocketFilename := filename } h
      | argument content =>
        have hnone : handleOptArgument state.options content = none := by
          rw [h]
          rfl
        dsimp only
        rw [hnone]
        simp
      | kept o =>
        have hne : { state with options := state.options ++ [o] }.options ≠ [] := by simp
        simpa using parseOpts_in_bounds hne

/-- The parsing reads before the beginning of its array if and only if an argument that is no
option comes before the first option that is kept, with nothing but `-p` and `-f` before it. -/
theorem parseArguments_outOfBounds (argv : List CString) :
    parseArguments argv = .outOfBounds ↔ Misplaced (getopt argv) := parseOpts_outOfBounds rfl

end

/-! ### What is accepted -/

/-- Numbers fit into an `int` and are not negative, and no comma is left in what is listed. -/
def CmdLineOpt.WellFormed : CmdLineOpt → Prop
  | writeDirReq maxFiles dirname => (0 ≤ maxFiles ∧ maxFiles ≤ intMax) ∧ 44 ∉ dirname
  | writeSave _ | readSave _ => True
  | readRandReq val => 0 ≤ val.toInt
  | wait val | changeLogLevel val => 0 ≤ val ∧ val ≤ intMax
  | writeFileReq files | readFileReq files | lockFileReq files | unlockFileReq files
  | removeFileReq files | appendDataReq files => files ≠ [] ∧ ∀ file ∈ files, 44 ∉ file

section
variable {opts : List Opt} {state state' : ClientState} {o : CmdLineOpt} {text : CString} {val : ℤ}

theorem parsePositiveInteger_le (str : CString) : parsePositiveInteger str ≤ intMax := by
  unfold parsePositiveInteger intMax
  dsimp only
  split_ifs
  · decide
  · decide
  · have h := @Int.bmod_lt (strtol str).val (2^32) (by decide)
    unfold toInt
    omega

theorem not_mem_splitFiles (value : CString) : ∀ file ∈ splitFiles value, 44 ∉ file := by
  unfold splitFiles
  induction value with
  | nil => simp
  | cons byte value ih =>
    rw [List.splitOn_cons_eq_if_modifyHead]
    split_ifs with hcomma
    · exact List.forall_mem_cons.mpr ⟨List.not_mem_nil, ih⟩
    · obtain ⟨file, files, hfiles⟩ := List.exists_cons_of_ne_nil (List.splitOn_ne_nil 44 value)
      rw [hfiles, List.forall_mem_cons] at ih
      rw [hfiles, List.modifyHead_cons, List.forall_mem_cons]
      refine ⟨fun h => ?_, ih.2⟩
      rcases List.mem_cons.mp h with rfl | h
      · exact hcomma BEq.rfl
      · exact ih.1 h

theorem wellFormed_writeDir (h : parseWriteDir text = some o) : o.WellFormed := by
  have htake : 44 ∉ text.takeWhile (· ≠ 44) := fun h => by
    simpa using List.mem_takeWhile_imp h
  unfold parseWriteDir at h
  split at h
  next hdrop =>
    cases h
    rw [List.dropWhile_eq_nil_iff] at hdrop
    exact ⟨⟨by decide, Int.le_refl _⟩, fun h => by simpa using hdrop 44 h⟩
  next digit digits _ =>
    dsimp only at h
    split_ifs at h with hneg
    cases h
    exact ⟨⟨Int.not_lt.mp hneg, parsePositiveInteger_le _⟩, htake⟩
  next => cases h

theorem wellFormed_number {option : ℤ → CmdLineOpt} (h : parseNumber option text = some o)
    (hwf : ∀ val, 0 ≤ val ∧ val ≤ intMax → (option val).WellFormed) : o.WellFormed := by
  unfold parseNumber at h
  dsimp only at h
  split_ifs at h with hneg
  cases h
  exact hwf _ ⟨Int.not_lt.mp hneg, parsePositiveInteger_le _⟩

theorem wellFormed_param {opt : Opt} (h : parseParam opt = some (.kept o)) : o.WellFormed := by
  cases opt with
  | unknown | argument => cases h
  | letter letter optarg =>
    cases letter with
    | h | p => cases h
    | R =>
      cases h
      exact Int.le_refl _
    | f | D | d =>
      cases optarg <;> cases h
      all_goals trivial
    | w =>
      cases optarg with
      | none => cases h
      | some value =>
        obtain ⟨_, ho, he⟩ := Option.map_eq_some_iff.mp h
        cases he
        exact wellFormed_writeDir ho
    | L | t =>
      cases optarg with
      | none => cases h
      | some value =>
        obtain ⟨_, ho, he⟩ := Option.map_eq_some_iff.mp h
        cases he
        exact wellFormed_number ho fun _ h => h
    | W | r | l | u | c | a =>
      cases optarg with
      | none => cases h
      | some value =>
        cases h
        exact ⟨List.splitOn_ne_nil 44 value, not_mem_splitFiles value⟩

theorem wellFormed_parseReadRand {content : CString} (h : parseReadRand content = some val) :
    (CmdLineOpt.readRandReq (BitVec.ofInt 32 val)).WellFormed := by
  have hrange : 0 ≤ val ∧ val ≤ intMax := by
    unfold parseReadRand at h
    split at h
    · dsimp only at h
      split_ifs at h with hneg
      cases h
      exact ⟨Int.not_lt.mp hneg, parsePositiveInteger_le _⟩
    · cases h
  obtain ⟨hpos, hmax⟩ := hrange
  change val ≤ 2^31 - 1 at hmax
  change 0 ≤ (BitVec.ofInt 32 val).toInt
  rw [BitVec.toInt_ofInt, Int.bmod_def]
  split_ifs <;> omega

/-- What is kept of a command line. -/
structure ClientState.WellFormed (state : ClientState) : Prop where
  options : ∀ o ∈ state.options, o.WellFormed
  length : state.options.length ≤ maxOptionsCount

theorem wellFormed_concat (hwf : state.WellFormed) (hlen : state.options.length ≠ maxOptionsCount)
    (ho : o.WellFormed) : (state.apply (.option o)).WellFormed where
  options := by
    intro o' ho'
    rcases List.mem_append.mp ho' with h | h
    · exact hwf.options o' h
    · exact List.mem_singleton.mp h ▸ ho
  length := by
    have hle := hwf.length
    rw [ClientState.apply, List.length_append, List.length_singleton]
    omega

theorem wellFormed_parseOpts (hwf : state.WellFormed)
    (h : parseOpts opts state = .ok state' ∨ parseOpts opts state = .error state') :
    state'.WellFormed := by
  induction opts generalizing state with
  | nil =>
    rcases h with h | h <;> cases h
    exact hwf
  | cons opt opts ih =>
    rw [parseOpts] at h
    split_ifs at h with hlen
    · rcases h with h | h <;> cases h
      exact hwf
    · cases hp : parseParam opt with
      | none =>
        rw [hp] at h
        rcases h with h | h <;> cases h
        exact hwf
      | some param =>
        rw [hp] at h
        cases param with
        | help => rcases h with h | h <;> cases h
        | log =>
          exact @ih { state with gIsExtendedLogEnabled := true } ⟨hwf.options, hwf.length⟩ h
        | socket filename =>
          exact @ih { state with gSocketFilename := filename } ⟨hwf.options, hwf.length⟩ h
        | kept o => exact ih (wellFormed_concat hwf hlen (wellFormed_param hp)) h
        | argument content =>
          dsimp only at h
          rcases handleOptArgument_cases state.options content with
            ⟨-, hhandle⟩ | ⟨⟨res, hhandle⟩, -⟩ | ⟨before, n, val, hoptions, hval, hhandle⟩
          · rw [hhandle] at h
            rcases h with h | h <;> cases h
          · rw [hhandle] at h
            exact ih ⟨hwf.options, hwf.length⟩ h
          · rw [hhandle] at h
            obtain ⟨hwf, hle⟩ := hwf
            rw [hoptions] at hwf hle
            rw [List.length_append, List.length_singleton] at hle
            refine ih ⟨fun o' ho' => ?_, ?_⟩ h
            · rcases List.mem_append.mp ho' with h | h
              · exact hwf o' (List.mem_append_left _ h)
              · exact List.mem_singleton.mp h ▸ wellFormed_parseReadRand hval
            · rwa [List.length_append, List.length_singleton]

theorem accepted_wellFormed {argv : List CString} (h : parseArguments argv = .ok state) :
    state.WellFormed :=
  wellFormed_parseOpts ⟨List.forall_mem_nil _, Nat.zero_le _⟩ (.inl h)

theorem Number.exists (h : 0 ≤ val ∧ val ≤ intMax) : ∃ text, Number text val := by
  obtain ⟨digits, hne, hd, hval⟩ := exists_digits val.toNat
  refine ⟨digits, ⟨[], .none, digits, rfl, nofun, hne, hd, ?_⟩, h⟩
  change val = (digitsValue digits : ℤ)
  omega

/-- Well-formed options can be written down. -/
theorem CmdLineOpt.WellFormed.written (h : o.WellFormed) : ∃ args, Written (.option o) args := by
  have hwritten : ∀ {letter text}, Denotes o letter text → ∃ args, Written (.option o) args :=
    fun hd => ⟨_, .option hd .apart⟩
  cases o with
  | writeDirReq maxFiles dirname =>
    obtain ⟨text, ht⟩ := Number.exists h.1
    exact hwritten (.writeDirMax h.2 ht)
  | writeSave dirname => exact hwritten .writeSave
  | readSave dirname => exact hwritten .readSave
  | wait val =>
    obtain ⟨text, ht⟩ := Number.exists h
    exact hwritten (.wait ht)
  | changeLogLevel val =>
    obtain ⟨text, ht⟩ := Number.exists h
    exact hwritten (.changeLogLevel ht)
  | readRandReq val =>
    have hmax : val.toInt ≤ intMax := by
      have hlt := val.toInt_lt
      unfold intMax
      omega
    obtain ⟨text, ht⟩ := Number.exists ⟨h, hmax⟩
    have hwritten := Written.readRandMax ht
    rw [BitVec.ofInt_toInt] at hwritten
    exact ⟨_, hwritten⟩
  | writeFileReq files => exact hwritten (@Denotes.files .write files h.1 h.2)
  | readFileReq files => exact hwritten (@Denotes.files .read files h.1 h.2)
  | lockFileReq files => exact hwritten (@Denotes.files .lock files h.1 h.2)
  | unlockFileReq files => exact hwritten (@Denotes.files .unlock files h.1 h.2)
  | removeFileReq files => exact hwritten (@Denotes.files .remove files h.1 h.2)
  | appendDataReq files => exact hwritten (.appendData h.1 h.2)

theorem exists_written {options : List CmdLineOpt} (h : ∀ o ∈ options, o.WellFormed) :
    ∃ argvs, List.Forall₂ Written (options.map .option) argvs := by
  induction options with
  | nil => exact ⟨[], .nil⟩
  | cons o options ih =>
    rw [List.forall_mem_cons] at h
    obtain ⟨args, hargs⟩ := h.1.written
    obtain ⟨argvs, hargvs⟩ := ih h.2
    exact ⟨args::argvs, .cons hargs hargvs⟩

/-! ### Strings without null bytes -/

def CmdLineOpt.strings : CmdLineOpt → List CString
  | writeDirReq _ dirname | writeSave dirname | readSave dirname => [dirname]
  | readRandReq _ | wait _ | changeLogLevel _ => []
  | writeFileReq files | readFileReq files | lockFileReq files | unlockFileReq files
  | removeFileReq files | appendDataReq files => files

def Setting.strings : Setting → List CString
  | log => []
  | socket filename => [filename]
  | option o => o.strings

def ClientState.strings (state : ClientState) : List CString :=
  state.gSocketFilename :: state.options.flatMap CmdLineOpt.strings

theorem Number.zero_notMem (h : Number text val) : 0 ∉ text := by
  obtain ⟨⟨blanks, sign, digits, rfl, hblanks, -, hdigits, -⟩, -⟩ := h
  rw [List.mem_append, List.mem_append]
  rintro (h | h | h)
  · exact absurd (hblanks 0 h) (by decide)
  · cases sign <;> revert h <;> decide
  · exact absurd (hdigits 0 h) (by decide)

theorem Denotes.zero_notMem (h : Denotes o letter text) (ho : ∀ str ∈ o.strings, 0 ∉ str) :
    0 ∉ text := by
  have hfiles : ∀ files : List CString, (∀ file ∈ files, 0 ∉ file) →
      (0 : UInt8) ∉ [44].intercalate files := by
    intro files hf
    induction files with
    | nil => exact List.not_mem_nil
    | cons file files ih =>
      rw [List.forall_mem_cons] at hf
      cases files with
      | nil => simpa using hf.1
      | cons file' files =>
        rw [List.intercalate_cons_cons, List.mem_append, List.mem_append]
        rintro ((h | h) | h)
        · exact hf.1 h
        · revert h
          decide
        · exact ih hf.2 h
  cases h with
  | writeSave | readSave | writeDir => exact ho _ List.mem_cons_self
  | writeDirMax _ ht =>
    have hdir := ho _ List.mem_cons_self
    have htext := ht.zero_notMem
    simp [hdir, htext]
  | @files k files => exact hfiles files fun file hfile => ho file (by cases k <;> exact hfile)
  | appendData => exact hfiles _ ho
  | wait ht | changeLogLevel ht => exact ht.zero_notMem

/-- No null byte is needed to write down what contains none. -/
theorem Written.zero_notMem (h : Written x args) (hx : ∀ str ∈ x.strings, 0 ∉ str) :
    ∀ arg ∈ args, 0 ∉ arg := by
  have hbyte : ∀ letter : Letter, (0 : UInt8) ≠ letter.byte := by
    intro letter
    cases letter <;> decide
  have hspelled : ∀ {letter text}, Spelled letter text args → 0 ∉ text → ∀ arg ∈ args, 0 ∉ arg := by
    rintro letter text (_ | _) htext arg harg
    · simp only [List.mem_cons, List.not_mem_nil, or_false] at harg
      rcases harg with rfl | rfl
      · simp [hbyte letter]
      · exact htext
    · rw [List.mem_singleton.mp harg]
      simp [hbyte letter, htext]
  cases h with
  | log => simp [Letter.byte]
  | readRand h0 => simp [Letter.byte, h0]
  | socket hs => exact hspelled hs (hx _ List.mem_cons_self)
  | option hd hs => exact hspelled hs (hd.zero_notMem hx)
  | readRandMax ht => simp [Letter.byte, ht.zero_notMem]

theorem written_zero_notMem {settings : List Setting} {argvs : List (List CString)}
    (h : List.Forall₂ Written settings argvs) (hx : ∀ x ∈ settings, ∀ str ∈ x.strings, 0 ∉ str) :
    ∀ arg ∈ argvs.flatten, 0 ∉ arg := by
  induction h with
  | nil => exact fun _ h => absurd h List.not_mem_nil
  | cons hw _ ih =>
    rw [List.forall_mem_cons] at hx
    rw [List.flatten_cons]
    exact List.forall_mem_append.mpr ⟨hw.zero_notMem hx.1, ih hx.2⟩

theorem foldl_apply_options (options : List CmdLineOpt) (state : ClientState) :
    (options.map Setting.option).foldl ClientState.apply state =
      { state with options := state.options ++ options } := by
  induction options generalizing state with
  | nil =>
    rw [List.append_nil]
    rfl
  | cons o options ih =>
    rw [List.map_cons, List.foldl_cons, ih, ClientState.apply, List.append_assoc]
    rfl

/-- What parsing accepts is well formed, and it never keeps more options than there is room for.
Conversely arguments, which contain no null bytes, make every state with less than the greatest
number of options whose options are well formed and whose strings contain none. -/
theorem parseArguments_accepts (state : ClientState) :
    ((∃ argv, parseArguments argv = .ok state) → state.WellFormed) ∧
      (state.options.length < maxOptionsCount → (∀ o ∈ state.options, o.WellFormed) →
        (∀ str ∈ state.strings, 0 ∉ str) →
        ∃ argv, (∀ arg ∈ argv, 0 ∉ arg) ∧ parseArguments argv = .ok state) := by
  constructor
  · rintro ⟨argv, h⟩
    exact accepted_wellFormed h
  · intro hlt hwf hzero
    obtain ⟨argvs, hargvs⟩ := exists_written hwf
    have hkept : ∀ options : List CmdLineOpt,
        (options.map Setting.option).filterMap Setting.kept = options := by
      intro options
      rw [List.filterMap_map]
      exact List.filterMap_some
    obtain ⟨filename, log, options⟩ := state
    obtain ⟨hfilename, hoptions⟩ := List.forall_mem_cons.mp hzero
    have hsettings : ∃ settings argvs, List.Forall₂ Written settings argvs ∧
        settings.filterMap Setting.kept = [] ∧
        settings.foldl ClientState.apply initializeClient = ⟨filename, log, []⟩ ∧
        ∀ x ∈ settings, ∀ str ∈ x.strings, 0 ∉ str := by
      have hsocket : Written (.socket filename) _ := .socket .apart
      have hx : ∀ str ∈ (Setting.socket filename).strings, 0 ∉ str :=
        List.forall_mem_singleton.mpr hfilename
      cases log with
      | false =>
        exact ⟨[.socket filename], _, .cons hsocket .nil, rfl, rfl,
          List.forall_mem_singleton.mpr hx⟩
      | true =>
        exact ⟨[.socket filename, .log], _, .cons hsocket (.cons .log .nil), rfl, rfl,
          List.forall_mem_cons.mpr ⟨hx, List.forall_mem_singleton.mpr nofun⟩⟩
    obtain ⟨settings, argvs', hargvs', hnone, hstate, hx⟩ := hsettings
    have hwritten := List.rel_append hargvs' hargvs
    have hparse := @parseOpts_written initializeClient _ _ hwritten (by
      rw [List.filterMap_append, hnone, hkept]
      exact (Nat.zero_add _).symm ▸ hlt)
    rw [List.foldl_append, hstate, foldl_apply_options] at hparse
    refine ⟨_, written_zero_notMem hwritten (List.forall_mem_append.mpr ⟨hx, ?_⟩), hparse⟩
    intro x hmem
    obtain ⟨o, ho, rfl⟩ := List.mem_map.mp hmem
    exact fun str hstr => hoptions str (List.mem_flatMap.mpr ⟨o, ho, hstr⟩)

end

end StorageServer.Client
