import StorageServer.Server.Loader
import StorageServer.Server.Names
import Mathlib.Data.List.GetD

/-! What a configuration file means: every option has the last valid value that the file gives to
it, or its default. -/
namespace StorageServer.Server
open Common Library.LastWrites Library.Lines

abbrev Setting := List UInt8 × List UInt8

/-- The keys and values of a file. -/
def settingsOf (file : List UInt8) : Option (List Setting) :=
  ((lines 10 file).mapM splitLine).map List.reduceOption

section
variable {β : Type*}

/-- The value that a setting gives to an option, if it is valid. -/
def valueFor (o : ConfigOption) (f : List UInt8 → Option β) (setting : Setting) : Option β :=
  if ConfigOption.ofKey setting.1 = some o then f setting.2 else none

/-- The last valid value for an option. -/
def chosen (o : ConfigOption) (f : List UInt8 → Option β) (settings : List Setting) : Option β :=
  last (valueFor o f) settings

end

/-- Every file name is valid. -/
def fileName (value : List UInt8) : Option (Option (List UInt8)) :=
  some (some (value.take maxFilePathLen))

def megabytes (settings : List Setting) : ℤ := (chosen .maxSizeMB positiveValue settings).getD 16

def slots (settings : List Setting) : ℤ := (chosen .maxSizeSlot positiveValue settings).getD 32

/-- The ratio of the table size, which is medium if the file does not choose another one. -/
def ratio (settings : List Setting) : ℤ :=
  tableRatio.getD ((chosen .tableSize tableSizeIndex settings).getD 3 - 1) 0

def configOf (settings : List Setting) : ServerConfig where
  socketFilename :=
    ((chosen .socketFile fileName settings).getD none).or (some defaultSockFile)
  logFilename := ((chosen .logFile fileName settings).getD none).or (some defaultLogFile)
  numWorkers := (chosen .numWorkers positiveValue settings).getD 2
  maxClients := (chosen .maxClients positiveValue settings).getD 8
  fsConfigs :=
    { tableSize := tableSizeOf (slots settings) (ratio settings)
      maxFileCapacitySlot := slots settings
      maxFileCapacityMB := megabytes settings }

/-! ### The loop over the lines -/

theorem foldlM_readLine (ls : List (List UInt8)) (configs : ServerConfig) :
    ls.foldlM readLine configs =
      (ls.mapM splitLine).map fun settings => settings.reduceOption.foldl setOption configs := by
  induction ls generalizing configs with
  | nil => rfl
  | cons line ls ih =>
    rw [List.foldlM_cons, List.mapM_cons, readLine]
    cases hs : splitLine line with
    | none => rfl
    | some setting =>
      cases setting with
      | none =>
        dsimp only [Option.bind_eq_bind, Option.bind_some, Option.pure_def]
        rw [ih]
        cases ls.mapM splitLine <;> rfl
      | some setting =>
        dsimp only [Option.bind_eq_bind, Option.bind_some, Option.pure_def]
        rw [ih]
        cases ls.mapM splitLine <;> rfl

theorem setOption_eq (configs : ServerConfig) (setting : Setting) :
    setOption configs setting =
      { socketFilename := (valueFor .socketFile fileName setting).getD configs.socketFilename
        logFilename := (valueFor .logFile fileName setting).getD configs.logFilename
        numWorkers := (valueFor .numWorkers positiveValue setting).getD configs.numWorkers
        maxClients := (valueFor .maxClients positiveValue setting).getD configs.maxClients
        fsConfigs :=
          { tableSize :=
              (valueFor .tableSize tableSizeIndex setting).getD configs.fsConfigs.tableSize
            maxFileCapacitySlot := (valueFor .maxSizeSlot positiveValue setting).getD
              configs.fsConfigs.maxFileCapacitySlot
            maxFileCapacityMB := (valueFor .maxSizeMB positiveValue setting).getD
              configs.fsConfigs.maxFileCapacityMB } } := by
  unfold setOption valueFor
  cases ConfigOption.ofKey setting.1 with
  | none => rfl
  | some o => cases o <;> rfl

theorem chosen_concat {β : Type*} (o : ConfigOption) (f : List UInt8 → Option β)
    (settings : List Setting) (setting : Setting) (d : β) :
    (chosen o f (settings ++ [setting])).getD d =
      (valueFor o f setting).getD ((chosen o f settings).getD d) := by
  rw [chosen, last_concat, Option.getD_or]
  rfl

/-- What the settings leave behind before it is validated. -/
theorem foldl_setOption (settings : List Setting) :
    settings.foldl setOption clearedConfig =
      { socketFilename := (chosen .socketFile fileName settings).getD none
        logFilename := (chosen .logFile fileName settings).getD none
        numWorkers := (chosen .numWorkers positiveValue settings).getD 0
        maxClients := (chosen .maxClients positiveValue settings).getD 0
        fsConfigs :=
          { tableSize := (chosen .tableSize tableSizeIndex settings).getD 0
            maxFileCapacitySlot := (chosen .maxSizeSlot positiveValue settings).getD 0
            maxFileCapacityMB := (chosen .maxSizeMB positiveValue settings).getD 0 } } := by
  induction settings using List.reverseRecOn with
  | nil => rfl
  | append_singleton settings setting ih =>
    rw [List.foldl_append, List.foldl_cons, List.foldl_nil, ih, setOption_eq]
    simp only [chosen_concat]

/-! ### Validation -/

/-- What a setting chooses is valid. -/
theorem valid_of_chosen {β : Type*} {o : ConfigOption} {f : List UInt8 → Option β}
    {settings : List Setting} {b : β} (h : chosen o f settings = some b) :
    ∃ value, f value = some b := by
  obtain ⟨setting, -, hb⟩ := exists_of_last h
  unfold valueFor at hb
  split_ifs at hb
  exact ⟨setting.2, hb⟩

theorem pos_of_positiveValue {value : List UInt8} {v : ℤ} (h : positiveValue value = some v) :
    1 ≤ v ∧ v = parsePositiveInteger value := by
  unfold positiveValue at h
  dsimp only at h
  split_ifs at h with hpos
  obtain rfl := Option.some.inj h
  exact ⟨hpos, rfl⟩

theorem tableSizeIndex_range {value : List UInt8} {i : ℕ} (h : tableSizeIndex value = some i) :
    1 ≤ i ∧ i ≤ 5 := by
  obtain ⟨j, hj, rfl⟩ := Option.map_eq_some_iff.mp h
  have hlt : j < 5 := (List.findIdx?_eq_some_iff_findIdx_eq.mp hj).1
  exact ⟨Nat.le_add_left 1 j, hlt⟩

/-- A number is positive, so that 0 tells that there is none. -/
theorem getD_positive {o : ConfigOption} {settings : List Setting} {d : ℤ} :
    (if (chosen o positiveValue settings).getD 0 = 0 then d
      else (chosen o positiveValue settings).getD 0) =
        (chosen o positiveValue settings).getD d := by
  cases h : chosen o positiveValue settings with
  | none => rfl
  | some v =>
    obtain ⟨value, hv⟩ := valid_of_chosen h
    have hpos := (pos_of_positiveValue hv).1
    exact if_neg (by rw [Option.getD_some]; omega)

theorem getD_tableSize {settings : List Setting} :
    (if (chosen .tableSize tableSizeIndex settings).getD 0 = 0 then 3
      else (chosen .tableSize tableSizeIndex settings).getD 0) =
        (chosen .tableSize tableSizeIndex settings).getD 3 := by
  cases h : chosen .tableSize tableSizeIndex settings with
  | none => rfl
  | some i =>
    obtain ⟨value, hi⟩ := valid_of_chosen h
    have hpos := (tableSizeIndex_range hi).1
    exact if_neg (by rw [Option.getD_some]; omega)

theorem getD_tableSize_range (settings : List Setting) :
    1 ≤ (chosen .tableSize tableSizeIndex settings).getD 3 ∧
      (chosen .tableSize tableSizeIndex settings).getD 3 ≤ 5 := by
  cases h : chosen .tableSize tableSizeIndex settings with
  | none => decide
  | some i =>
    obtain ⟨value, hi⟩ := valid_of_chosen h
    exact tableSizeIndex_range hi

/-- A file is read by reading what it sets. -/
theorem readConfigs_eq (file : List UInt8) : readConfigs file = (settingsOf file).map configOf := by
  unfold readConfigs settingsOf
  rw [foldlM_readLine]
  cases (lines 10 file).mapM splitLine with
  | none => rfl
  | some settings =>
    have hrange := getD_tableSize_range settings.reduceOption
    have hratio : tableRatio[(chosen .tableSize tableSizeIndex settings.reduceOption).getD 3 - 1]? =
        some (ratio settings.reduceOption) := by
      have hlen : tableRatio.length = 6 := rfl
      rw [ratio, List.getElem?_eq_getElem (by omega), List.getD_eq_getElem _ _ (by omega)]
    dsimp only [Option.map_some, Option.bind_eq_bind, Option.bind_some, Option.pure_def]
    rw [foldl_setOption]
    unfold validate
    dsimp only
    simp only [getD_positive, getD_tableSize]
    rw [hratio]
    rfl

/-! ### Limits -/

/-- The values of the type `int`. -/
def InInt (x : ℤ) : Prop := -2^31 ≤ x ∧ x ≤ 2^31 - 1

/-- The limits are positive, and the sizes computed from them are the mathematical ones. -/
structure Usable (settings : List Setting) (configs : ServerConfig) : Prop where
  numWorkers : 1 ≤ configs.numWorkers
  maxClients : 1 ≤ configs.maxClients
  slots : 1 ≤ configs.fsConfigs.maxFileCapacitySlot
  megabytes : 1 ≤ configs.fsConfigs.maxFileCapacityMB
  tableSize : (configs.fsConfigs.tableSize : ℤ) =
    2^20 + configs.fsConfigs.maxFileCapacitySlot * ratio settings
  bytesMax : (FileSystem.initializeFileSystem configs.fsConfigs).gCache.bytesMax =
    configs.fsConfigs.maxFileCapacityMB * 2^20
  bytesMax_pos : 0 < (FileSystem.initializeFileSystem configs.fsConfigs).gCache.bytesMax
  inInt : InInt (configs.fsConfigs.maxFileCapacitySlot * ratio settings) ∧
    InInt (2^20 + configs.fsConfigs.maxFileCapacitySlot * ratio settings) ∧
    InInt (configs.fsConfigs.maxFileCapacityMB * 1024) ∧
    InInt (configs.fsConfigs.maxFileCapacityMB * 1024 * 1024)

theorem one_le_getD {o : ConfigOption} (settings : List Setting) {d : ℤ} (hd : 1 ≤ d) :
    1 ≤ (chosen o positiveValue settings).getD d := by
  cases h : chosen o positiveValue settings with
  | none => exact hd
  | some v =>
    obtain ⟨value, hv⟩ := valid_of_chosen h
    exact (pos_of_positiveValue hv).1

theorem ratio_mem (settings : List Setting) : ratio settings ∈ ([0, 2, 3, 4, 6] : List ℤ) := by
  obtain ⟨h1, h5⟩ := getD_tableSize_range settings
  unfold ratio
  generalize (chosen .tableSize tableSizeIndex settings).getD 3 = i at h1 h5
  obtain ⟨i, rfl⟩ := Nat.exists_eq_add_of_le' h1
  match i, h5 with
  | 0, _ | 1, _ | 2, _ | 3, _ | 4, _ => decide

theorem toInt_of_inInt {x : ℤ} (h : InInt x) : toInt x = x := by
  obtain ⟨h1, h2⟩ := h
  unfold toInt
  rw [Int.bmod_def]
  split_ifs <;> omega

theorem tableSizeOf_eq {slots ratio : ℤ} (h0 : 0 ≤ slots * ratio) (h : InInt (slots * ratio))
    (hsum : InInt (2^20 + slots * ratio)) :
    (tableSizeOf slots ratio : ℤ) = 2^20 + slots * ratio := by
  have hbase : (1024*1024 : ℤ) = 2^20 := by decide
  rw [tableSizeOf, toInt_of_inInt h, hbase, toInt_of_inInt hsum, toSize]
  have hmax := hsum.2
  omega

theorem bytesMax_eq {configs : FSConfig}
    (h : InInt (configs.maxFileCapacityMB * 1024 * 1024)) :
    (FileSystem.initializeFileSystem configs).gCache.bytesMax =
      configs.maxFileCapacityMB * 2^20 := by
  have hmax : (FileSystem.initializeFileSystem configs).gCache.bytesMax =
      toInt (configs.maxFileCapacityMB * 1024 * 1024) := rfl
  rw [hmax, toInt_of_inInt h]
  omega

/-- The configuration that a file gives is usable if and only if the limits that the file sets are
not too large. -/
theorem usable_iff {file : List UInt8} {configs : ServerConfig}
    (h : readConfigs file = some configs) : ∃ settings, settingsOf file = some settings ∧
      (Usable settings configs ↔
        megabytes settings ≤ 2047 ∧ 2^20 + slots settings * ratio settings ≤ 2^31 - 1) := by
  rw [readConfigs_eq] at h
  obtain ⟨settings, hfile, rfl⟩ := Option.map_eq_some_iff.mp h
  refine ⟨settings, hfile, ?_⟩
  have hmb : 1 ≤ megabytes settings := one_le_getD settings (by decide)
  have hslots : 1 ≤ slots settings := one_le_getD settings (by decide)
  have hratio : 0 ≤ ratio settings := by
    have hmem := ratio_mem settings
    generalize ratio settings = r at hmem
    revert r
    decide
  have hprod : 0 ≤ slots settings * ratio settings := Int.mul_nonneg (by omega) hratio
  constructor
  · intro hu
    obtain ⟨-, ⟨-, htable⟩, -, -, hbytes⟩ := hu.inInt
    change megabytes settings * 1024 * 1024 ≤ _ at hbytes
    exact ⟨by omega, htable⟩
  · rintro ⟨hle, htable⟩
    have hprodInt : InInt (slots settings * ratio settings) := ⟨by omega, by omega⟩
    have hsumInt : InInt (2^20 + slots settings * ratio settings) := ⟨by omega, htable⟩
    have hkilobytes : InInt (megabytes settings * 1024) := ⟨by omega, by omega⟩
    have hbytes : InInt (megabytes settings * 1024 * 1024) := ⟨by omega, by omega⟩
    have hmax : (FileSystem.initializeFileSystem (configOf settings).fsConfigs).gCache.bytesMax =
        megabytes settings * 2^20 := bytesMax_eq hbytes
    exact {
      numWorkers := one_le_getD settings (by decide)
      maxClients := one_le_getD settings (by decide)
      slots := hslots
      megabytes := hmb
      tableSize := tableSizeOf_eq hprod hprodInt hsumInt
      bytesMax := hmax
      bytesMax_pos := hmax ▸ Int.mul_pos hmb (by decide)
      inInt := ⟨hprodInt, hsumInt, hkilobytes, hbytes⟩ }

theorem usable_iff_medium : ∃ configs settings,
    readConfigs (ascii "maxSizeMB=2047\ntableSize=MEDIUM\n") = some configs ∧
    settingsOf (ascii "maxSizeMB=2047\ntableSize=MEDIUM\n") = some settings ∧
    Usable settings configs := by
  have hread : (readConfigs (ascii "maxSizeMB=2047\ntableSize=MEDIUM\n")).isSome := by decide
  obtain ⟨configs, h⟩ := Option.isSome_iff_exists.mp hread
  obtain ⟨settings, hfile, hiff⟩ := usable_iff h
  refine ⟨configs, settings, h, hfile, hiff.mpr ?_⟩
  have hsettings : settingsOf (ascii "maxSizeMB=2047\ntableSize=MEDIUM\n") =
      some [(ascii "maxSizeMB", ascii "2047"), (ascii "tableSize", ascii "MEDIUM")] := by decide
  obtain rfl := Option.some.inj (hfile.symm.trans hsettings)
  decide

/-- 2048 megabytes are more bytes than an `int` counts. -/
theorem large_limit_overflows : ¬ ∀ file configs, readConfigs file = some configs →
    ∃ settings, settingsOf file = some settings ∧ Usable settings configs := by
  intro h
  have hsettings : settingsOf (ascii "maxSizeMB=2048\n") =
      some [(ascii "maxSizeMB", ascii "2048")] := by decide
  have hread := readConfigs_eq (ascii "maxSizeMB=2048\n")
  rw [hsettings, Option.map_some] at hread
  obtain ⟨settings, -, husable⟩ := h _ _ hread
  exact absurd husable.bytesMax_pos (by decide)

/-- A usable configuration is one that the file system is made for. -/
theorem Usable.admitted {settings : List Setting} {configs : ServerConfig}
    (h : Usable settings configs) : FSConfig.Admitted configs.fsConfigs :=
  ⟨h.slots, h.megabytes, ratio settings, ratio_mem settings, h.tableSize⟩

end StorageServer.Server
