/-!
# Settings

Which chain a wallet follows, where its files are, how it logs, and the policy the ledger reads.
Everything not set takes its default (`Settings.default`).
-/

namespace ShieldedLedger

/-- The chain a wallet follows: the production chain, the public test chain, or a local one for
tests. -/
inductive Network
  | main
  | test
  | regtest
deriving DecidableEq

namespace Network

/-- The name of the chain. -/
def name : Network → String
  | main => "main"
  | test => "test"
  | regtest => "regtest"

/-- The subdirectory that keeps this chain's files apart, if there is one. -/
def subdirectory? : Network → Option String
  | main => none
  | test => some "testnet3"
  | regtest => some "regtest"

/-- The chain with a name, spelled exactly. -/
def ofName? (name : String) : Option Network := [main, test, regtest].find? (·.name == name)

/-- What a caller who asked for another chain is told. -/
def unknownMessage (name : String) : String :=
  "unknown chain \"" ++ name ++ "\", expected main, test or regtest"

end Network

/-- How much is logged. -/
inductive LogLevel
  | off
  | error
  | warn
  | info
  | debug
  | trace
deriving DecidableEq

namespace LogLevel

/-- The name of the level, in capitals. -/
def name : LogLevel → String
  | off => "OFF"
  | error => "ERROR"
  | warn => "WARN"
  | info => "INFO"
  | debug => "DEBUG"
  | trace => "TRACE"

/-- The level with a name, in capitals or not. -/
def ofName? (name : String) : Option LogLevel :=
  [off, error, warn, info, debug, trace].find? (·.name == name.toUpper)

end LogLevel

/-- The settings of a wallet. Logs go to the console as well if `logToConsole` says so. The wallet's
own unconfirmed change may be spent if `spendZeroConfChange` says so, and coinbases only into the
shielded pool if `coinbaseMustBeProtected` does. -/
structure Settings where
  network : Network
  /-- Where the wallet's data is kept, if not in the default place. -/
  dataDir : Option String
  logLevel : LogLevel
  logToConsole : Bool
  spendZeroConfChange : Bool
  /-- Blocks a coinbase output waits before it can be spent. -/
  coinbaseMaturity : UInt32
  coinbaseMustBeProtected : Bool
  /-- How often the subset solver tries. -/
  selectionIterations : Nat
  confirmTarget : UInt32
  /-- The least time between two rebroadcasts, in seconds. -/
  resendInterval : UInt64
deriving DecidableEq

namespace Settings

/-- The settings of a wallet for which nothing is set. -/
def default : Settings where
  network := .main
  dataDir := none
  logLevel := .debug
  logToConsole := false
  spendZeroConfChange := true
  coinbaseMaturity := 100
  coinbaseMustBeProtected := true
  selectionIterations := 1000
  confirmTarget := 2
  resendInterval := 300

/-- The number of witnesses kept for a note: as many as a coinbase waits blocks, so that a note can
be rolled back as far as a coinbase, and at least one. -/
def witnessLimit (s : Settings) : Nat := max s.coinbaseMaturity.toNat 1

/-- There is always room for one witness. -/
theorem witnessLimit_pos (s : Settings) : 0 < s.witnessLimit := by
  unfold witnessLimit; omega

/-- A path inside a directory. -/
def joinPath (directory name : String) : String :=
  if directory.isEmpty || directory.endsWith "/" then directory ++ name
  else directory ++ "/" ++ name

/-- The directory of this chain's files, for a user with the given home directory. -/
def walletDir (s : Settings) (home : String) : String :=
  let root := s.dataDir.getD (joinPath home ".zen")
  match s.network.subdirectory? with
  | none => root
  | some name => joinPath root name

/-- The path of the log file. -/
def logPath (s : Settings) (home : String) : String :=
  joinPath (s.walletDir home) "zen-wallet.debug.log"

/-- Where logs go: the destinations by name, each with the thresholds it applies, those among them
that everything is handed to, and how much that is. -/
structure LogSetup where
  destinations : List (String × List LogLevel)
  rootDestinations : List String
  rootLevel : LogLevel
deriving DecidableEq

/-- A file always, and the console if asked for, each with the wallet's threshold. -/
def logSetup (s : Settings) : LogSetup :=
  let names := if s.logToConsole then ["logfile", "console"] else ["logfile"]
  { destinations := names.map fun name => (name, [s.logLevel])
    rootDestinations := names
    rootLevel := .debug }

end Settings
end ShieldedLedger
