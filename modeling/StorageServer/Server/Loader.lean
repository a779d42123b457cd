import StorageServer.Common.Integers
import StorageServer.Library.LastWrites
import StorageServer.Library.Lines
import StorageServer.Server.FileSystem

/-! How the server reads its configuration. A file is a list of bytes; `none` stands for a call of
`exit`. The messages for the user are left out. -/
namespace StorageServer.Server
open Common Library.LastWrites Library.Lines

abbrev maxFilePathLen : ℕ := 256

def defaultSockFile : List UInt8 := ascii "../cs_sock"
def defaultLogFile : List UInt8 := ascii "../log.txt"

/-- A file name is what lies in its buffer of `maxFilePathLen` bytes, without the zeros that fill
it; `none` is the null pointer. -/
structure ServerConfig where
  socketFilename : Option (List UInt8)
  logFilename : Option (List UInt8)
  numWorkers : ℤ
  maxClients : ℤ
  fsConfigs : FSConfig

/-- The options that a file may set. -/
inductive ConfigOption
  | socketFile
  | logFile
  | numWorkers
  | maxClients
  | maxSizeMB
  | maxSizeSlot
  | tableSize
  deriving DecidableEq

namespace ConfigOption

def name : ConfigOption → List UInt8
  | socketFile => ascii "socketFile"
  | logFile => ascii "logFile"
  | numWorkers => ascii "numWorkers"
  | maxClients => ascii "maxClients"
  | maxSizeMB => ascii "maxSizeMB"
  | maxSizeSlot => ascii "maxSizeSlot"
  | tableSize => ascii "tableSize"

/-- The comparisons of a key with the names, one after another. -/
def ofKey (key : List UInt8) : Option ConfigOption :=
  [socketFile, logFile, numWorkers, maxClients, maxSizeMB, maxSizeSlot, tableSize].find?
    fun o => key = o.name

end ConfigOption

def tableRatio : List ℤ := [0, 2, 3, 4, 6, 8]

def tableSizeValue : List (List UInt8) :=
  [ascii "SMALLEST", ascii "SMALL", ascii "MEDIUM", ascii "BIG", ascii "BIGGEST"]

/-! ### Reading line by line -/

/-- A line is skipped (`some none`), ends the process (`none`), or is split into a key and a value.
Its last byte is taken for the newline; as a string it ends at the first zero. -/
def splitLine (line : List UInt8) : Option (Option (List UInt8 × List UInt8)) :=
  if line.length = 1 then some none
  else if line.head? = some 35 then some none
  else
    let str := line.dropLast.takeWhile (· ≠ 0)
    let key := str.takeWhile (· ≠ 61)
    if 61 ∉ str ∨ key = [] then none
    else some (some (key, str.drop (key.length + 1)))

/-- The value of an option that must be a positive integer. -/
def positiveValue (value : List UInt8) : Option ℤ :=
  let num := parsePositiveInteger value
  if num > 0 then some num else none

/-- The index of a table size, counted from 1. -/
def tableSizeIndex (value : List UInt8) : Option ℕ :=
  (tableSizeValue.findIdx? fun name => value = name).map (· + 1)

/-- An unknown key and an invalid value leave the configuration as it is. -/
def setOption (configs : ServerConfig) (setting : List UInt8 × List UInt8) : ServerConfig :=
  let value := setting.2
  match ConfigOption.ofKey setting.1 with
  | some .socketFile => { configs with socketFilename := some (value.take maxFilePathLen) }
  | some .logFile => { configs with logFilename := some (value.take maxFilePathLen) }
  | some .numWorkers =>
    { configs with numWorkers := (positiveValue value).getD configs.numWorkers }
  | some .maxClients =>
    { configs with maxClients := (positiveValue value).getD configs.maxClients }
  | some .maxSizeMB =>
    { configs with fsConfigs := { configs.fsConfigs with
      maxFileCapacityMB := (positiveValue value).getD configs.fsConfigs.maxFileCapacityMB } }
  | some .maxSizeSlot =>
    { configs with fsConfigs := { configs.fsConfigs with
      maxFileCapacitySlot := (positiveValue value).getD configs.fsConfigs.maxFileCapacitySlot } }
  | some .tableSize =>
    { configs with fsConfigs := { configs.fsConfigs with
      tableSize := (tableSizeIndex value).getD configs.fsConfigs.tableSize } }
  | none => configs

def readLine (configs : ServerConfig) (line : List UInt8) : Option ServerConfig := do
  match ← splitLine line with
  | none => return configs
  | some setting => return setOption configs setting

/-! ### Validation -/

def clearedConfig : ServerConfig := ⟨none, none, 0, 0, ⟨0, 0, 0⟩⟩

/-- Defaults take the place of what has not been set. The table size is an index still. -/
def validate (configs : ServerConfig) : ServerConfig where
  socketFilename := configs.socketFilename.or (some defaultSockFile)
  logFilename := configs.logFilename.or (some defaultLogFile)
  maxClients := if configs.maxClients = 0 then 8 else configs.maxClients
  numWorkers := if configs.numWorkers = 0 then 2 else configs.numWorkers
  fsConfigs :=
    { maxFileCapacityMB :=
        if configs.fsConfigs.maxFileCapacityMB = 0 then 16 else configs.fsConfigs.maxFileCapacityMB
      tableSize := if configs.fsConfigs.tableSize = 0 then 3 else configs.fsConfigs.tableSize
      maxFileCapacitySlot :=
        if configs.fsConfigs.maxFileCapacitySlot = 0 then 32
        else configs.fsConfigs.maxFileCapacitySlot }

/-- The number of the slots of the table, computed as an `int`. -/
def tableSizeOf (slots ratio : ℤ) : ℕ := toSize (toInt (1024*1024 + toInt (slots * ratio)))

def readConfigs (file : List UInt8) : Option ServerConfig := do
  let configs ← (lines 10 file).foldlM readLine clearedConfig
  let configs := validate configs
  let ratio ← tableRatio[configs.fsConfigs.tableSize - 1]?
  return { configs with fsConfigs := { configs.fsConfigs with
    tableSize := tableSizeOf configs.fsConfigs.maxFileCapacitySlot ratio } }

end StorageServer.Server
