import Pear.Rewriting.AddressMap
import Pear.Rewriting.Arguments
import Pear.Rewriting.BasicBlocks

/-! # The rewriting passes

What the passes of `main` register with the rewriting context, in order: patches at
block entries and at offsets, functions, and external symbols. A patch is kept as the
parameters its text is made from.
-/
namespace Pear.Rewriting
open Python

/-- The variables and signatures whose text depends on the mode flags. -/
structure GlobalData where
  sharedmemFuzzing : ℕ
  isPersistent : ℕ
  signatures : List (String × ℕ)
  deriving DecidableEq

inductive Patch
  | aflData (d : GlobalData)
  | callFunction (func : String) (saveStack : ℕ)
  | trampoline (blockId : BitVec 16)
  | sharedmemHook (name : String)
  | persistentMode (count : Option ℤ) (hook : Option String)
  | rodataPadding (bytes : ℤ)
  deriving DecidableEq

inductive Place
  | entry (b : CodeBlock)
  | inside (i : InsertAt)
  deriving DecidableEq

structure Insertion where
  place : Place
  patch : Patch
  deriving DecidableEq

structure Context where
  insertions : List Insertion
  functions : List (String × Option String)
  externs : List (String × String)
  deriving DecidableEq

def Context.empty : Context := ⟨[],[],[]⟩

/-- `register_insert` and `insert_at`. -/
def Context.insert (c : Context) (place : Place) (patch : Patch) : Context :=
  { c with insertions := c.insertions ++ [⟨place,patch⟩] }

/-- `register_insert_function`; the text of a function that is not read from a file is
left out. -/
def Context.registerFunction (c : Context) (name : String) (contents : Option String) : Context :=
  { c with functions := c.functions ++ [(name,contents)] }

/-- `get_or_insert_extern_symbol`. -/
def Context.externSymbol (c : Context) (name lib : String) : Context :=
  { c with externs := c.externs ++ [(name,lib)] }

def persistentSignature : String × ℕ := ("##SIG_AFL_PERSISTENT##",9)

def deferredSignature : String × ℕ := ("##SIG_AFL_DEFER_FORKSRV##",6)

def globalData (isPersistent isDeferred isSharedmemFuzzing : Bool) : GlobalData where
  sharedmemFuzzing := if isSharedmemFuzzing then 1 else 0
  isPersistent := if isPersistent then 1 else 0
  signatures := (if isPersistent then [persistentSignature] else []) ++
    (if isDeferred then [deferredSignature] else [])

/-- `AddAFLGlobalDataPass.begin_module`. -/
def addGlobalData (m : Module) (args : Args) (c : Context) : Context :=
  c.insert (.entry m.entryPoint)
    (.aflData (globalData args.isPersistent args.isDeferred args.isSharedmemFuzzing))

structure AddAfl where
  initFunc : Option String
  initAddr : Option ℤ
  persistentModeFunc : Option String
  persistentModeAddr : Option ℤ
  persistentModeCount : Option ℤ
  sharedmemHookName : Option String
  sharedmemLocAddress : Option ℤ
  sharedmemLocIsPersistent : Bool
  sharedmemLocIsInit : Bool
  deriving DecidableEq

def AddAfl.ofArgs (args : Args) : AddAfl where
  initFunc := args.forkserverInitFunc
  initAddr := args.forkserverInitAddress
  persistentModeFunc := args.persistentModeFunc
  persistentModeAddr := args.persistentModeAddress
  persistentModeCount := args.persistentModeCount
  sharedmemHookName := args.sharedmemHookFuncName
  sharedmemLocAddress := args.hookLocAddress
  sharedmemLocIsPersistent := args.isHookLocPersistent
  sharedmemLocIsInit := args.isHookLocInit

/-- Interpolation of an optional string. -/
def interpolated (s : Option String) : String := s.getD "None"

/-- External functions the inserted functions use. -/
def libcFunctions : List String := [
  "getenv", "atoi", "shmat", "write", "perror", "malloc", "free", "sprintf", "fprintf", "printf",
  "_exit", "exit", "kill", "waitpid", "sigaction", "signal", "read", "fork", "open", "unlink",
  "close", "stderr", "fwrite", "raise", "memset", "puts"]

/-- The local variables of the function loop in `begin_module`. -/
structure Progress where
  context : Context
  addedEntrypoint : Bool
  addedPersistentMode : Bool
  instrumentedLocations : ℕ

namespace Progress

def insert (p : Progress) (place : Place) (patch : Patch) : Progress :=
  { p with context := p.context.insert place patch }

end Progress

namespace AddAfl

variable (pass : AddAfl)

def startForkserver : Patch := .callFunction "__afl_start_forkserver" 0x100

/-- The patch that calls the hook once, registers saved around it. -/
def setupAndCallHook : Patch := .sharedmemHook (interpolated pass.sharedmemHookName)

def persistentModePatch : Patch :=
  .persistentMode pass.persistentModeCount
    (if pass.sharedmemLocIsPersistent then some (interpolated pass.sharedmemHookName) else none)

/-- The name compared with the functions of the module: `main` when the user chose no
location. -/
def startFunc : Option String :=
  if !nonzero pass.initAddr && !given pass.initFunc then some "main" else pass.initFunc

/-- The forkserver call, and the hook if it goes with it. -/
def insertForkserver (place : Place) (p : Progress) : Progress :=
  let p := p.insert place startForkserver
  let p := if pass.sharedmemLocIsInit then p.insert place pass.setupAndCallHook else p
  { p with addedEntrypoint := true }

def insertPersistentMode (place : Place) (p : Progress) : Progress :=
  { p.insert place pass.persistentModePatch with addedPersistentMode := true }

/-- The entry block that `apply_persistent_mode_handler` leaves in its loop variable. -/
def handlerBlock (f : Function) : Result CodeBlock :=
  match f.entryBlocks.getLast? with
  | some b => .ok b
  | none => .error .unboundLocalError

/-- `add_afl_block_tracing`: a trampoline with a random block id at each head. -/
def addBlockTracing (cfg : List Edge) (ids : ℕ → BitVec 16) (f : Function) (p : Progress) :
    Result Progress :=
  (getBasicBlocks cfg f).foldlM (fun p blocklist => do
    let head ← getItem blocklist 0
    let p := p.insert (.entry head) (.trampoline (ids p.instrumentedLocations))
    return { p with instrumentedLocations := p.instrumentedLocations + 1 }) p

def startInFunction (p : Progress) (f : Function) : Result Progress :=
  if !p.addedEntrypoint && some f.name = pass.startFunc then do
    let block ← getItem f.entryBlocks 0
    return pass.insertForkserver (.entry block) p
  else .ok p

def persistInFunction (p : Progress) (f : Function) : Result Progress :=
  if some f.name = pass.persistentModeFunc then do
    let block ← handlerBlock f
    return pass.insertPersistentMode (.entry block) p
  else .ok p

/-- One round of the function loop; the function of the entry point is left alone. -/
def instrumentFunction (m : Module) (ids : ℕ → BitVec 16) (p : Progress) (f : Function) :
    Result Progress :=
  if f.allBlocks.contains m.entryPoint then .ok p
  else do
    let p ← pass.startInFunction p f
    let p ← pass.persistInFunction p f
    addBlockTracing m.cfg ids f p

/-- The messages at the end of `begin_module` print the address when no function name
is given. -/
def report (p : Progress) : Result Unit :=
  if p.addedPersistentMode && !given pass.persistentModeFunc && pass.persistentModeAddr.isNone
  then .error .typeError else .ok ()

/-- External symbols, functions and the setup call, before any location is looked at. -/
def prepare (m : Module) (patches : List (String × String)) (c : Context) : Context :=
  let c := libcFunctions.foldl (fun c name => c.externSymbol name "libc.so.6") c
  let c := if given pass.sharedmemHookName
    then c.externSymbol (interpolated pass.sharedmemHookName) "not_real_lib.a" else c
  let c := c.registerFunction "__afl_trace" none
  let c := patches.foldl (fun c p => c.registerFunction p.1 (some p.2)) c
  c.insert (.entry m.entryPoint) (.callFunction "__afl_setup" 0x100)

def atAddress (mappings : List (ℤ × Uuid)) (m : Module) (address : Option ℤ)
    (insert : Place → Progress → Progress) (p : Progress) : Result Progress :=
  if nonzero address then do
    let i ← insertPatchAtAddress mappings m.codeBlocks (address.getD 0)
    return insert (.inside i) p
  else .ok p

/-- Address based persistent mode, when no function had it. -/
def persistAtAddress (mappings : List (ℤ × Uuid)) (m : Module) (p : Progress) : Result Progress :=
  if p.addedPersistentMode then .ok p
  else atAddress mappings m pass.persistentModeAddr pass.insertPersistentMode p

/-- The error when `main` was not found, and the messages. -/
def finish (p : Progress) : Result Context :=
  if p.addedEntrypoint then (pass.report p).map (fun _ => p.context) else .error (.systemExit 1)

def beginModule (file : List (String × String)) (patches : List (String × String)) (m : Module)
    (functions : List Function) (ids : ℕ → BitVec 16) (c : Context) : Result Context := do
  let mappings ← loadAddressMap file
  let p : Progress := ⟨pass.prepare m patches c,false,false,0⟩
  let p ← atAddress mappings m pass.initAddr pass.insertForkserver p
  let p ← functions.foldlM (pass.instrumentFunction m ids) p
  let p ← pass.persistAtAddress mappings m p
  let p ← atAddress mappings m pass.sharedmemLocAddress
    (fun place p => p.insert place pass.setupAndCallHook) p
  pass.finish p

end AddAfl

/-- Bytes up to the next multiple, a whole one if already there. -/
def calcAlignment (alignment nbytes : ℤ) : ℤ := alignment * (nbytes / alignment + 1) - nbytes

/-- `main`: the passes in order. `m` is the module as loaded; `now` is the module, and
`functions` its functions, when the third pass runs; `patches` are the functions read
from the patch directory and `addedBytes` is the number kept beside them. -/
def main (read : ℕ → String → Result ℤ) (o : Options) (patches : List (String × String)) (addedBytes : String)
    (m now : Module) (functions : List Function) (ids : ℕ → BitVec 16) : Result Context := do
  let args ← getArgs read o
  let bytes ← read 10 addedBytes
  let file := createAddressMap m.codeBlocks
  let c := addGlobalData m args .empty
  let c ← (AddAfl.ofArgs args).beginModule file patches now functions ids c
  return c.insert (.entry now.entryPoint) (.rodataPadding (calcAlignment 16 bytes))

end Pear.Rewriting
