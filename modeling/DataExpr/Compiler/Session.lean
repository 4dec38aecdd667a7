import DataExpr.Compiler.Config
import DataExpr.Eval.Cursor
import DataExpr.Expr.Sharing
import DataExpr.Lowering.Lower
import DataExpr.Lru
import DataExpr.Program.Render

/-!
# Compilers

A compiler turns expressions into executables and keeps the most recently used ones.
Two expressions share an executable when they are alike, reuse their subexpressions
in the same way and are compiled against like signatures with the same settings.
When an executable fails for the first time, its program can be reported to a sink.
-/

namespace DataExpr

variable {σ : Type}

/-- What decides whether an executable can be used again. -/
structure CacheKey where
  expr : Expr
  sharing : List Nat
  signature : Signature
  threshold : Weight.Threshold
  debug : Bool

namespace CacheKey

def of (config : Config) (e : Expr) (signature : Signature) : CacheKey :=
  { expr := e, sharing := e.sharingPattern, signature
    threshold := config.inlineThreshold, debug := config.debug }

/-- Whether two keys stand for the same executable. -/
def same (a b : CacheKey) : Bool :=
  a.sharing == b.sharing && a.threshold == b.threshold && a.debug == b.debug &&
    a.signature.alike b.signature && a.expr.alike b.expr

instance : BEq CacheKey := ⟨same⟩

end CacheKey

structure Executable where
  /-- The number of its key in the order of first use; it serves as a name. -/
  number : Nat
  program : Program
  debug : Bool

/-- A program that was reported after a failure. -/
structure Report where
  number : Nat
  program : Program

/-- Where reports go. -/
inductive Sink where
  /-- Every report is kept. -/
  | memory
  /-- One file for each name, written anew by each report; nothing is kept if the
      directory cannot be written to. -/
  | directory (writable : Bool)
deriving DecidableEq, Repr

namespace Sink

/-- Puts a report in its place by number; a present one is replaced. -/
def store (report : Report) : List Report → List Report
  | [] => [report]
  | r :: rest =>
    if report.number = r.number then report :: rest
    else if report.number < r.number then report :: r :: rest
    else r :: store report rest

/-- Takes a report in. -/
def persist (sink : Sink) (report : Report) (reports : List Report) : List Report :=
  match sink with
  | .memory => reports ++ [report]
  | .directory writable => if writable then store report reports else reports

end Sink

/-- The position of an executable among those that a compiler has made. -/
abbrev Handle := Nat

structure Compiler where
  config : Config
  sink : Option Sink
  cache : Option (Lru CacheKey Handle)
  /-- The keys of executables, in the order of their first use. -/
  keys : List CacheKey
  executables : Array Executable
  /-- The executables that have been reported. -/
  reported : List Handle
  reports : List Report

namespace Compiler

/-- The cache that the settings ask for; without capacity there is none. -/
def newCache (config : Config) : Except LruError (Option (Lru CacheKey Handle)) :=
  if config.cacheCapacity = 0 then .ok none else (Lru.new config.cacheCapacity).map some

def build (config : Config) (sink : Option Sink) : Except LruError Compiler := do
  return { config, sink, cache := ← newCache config, keys := [], executables := #[]
           reported := [], reports := [] }

/-- A compiler with these settings.  In debug mode it writes reports to the directory of
    the settings, if there is one. -/
def new (config : Config) (writable : Bool) : Except LruError Compiler :=
  build config (if config.debug && config.debugDir.isSome then some (.directory writable) else none)

/-- A compiler in debug mode with a sink. -/
def withSink (config : Config) (sink : Sink) : Except LruError Compiler :=
  build { config with debug := true } (some sink)

def cacheSize (compiler : Compiler) : Nat :=
  match compiler.cache with
  | some cache => cache.size
  | none => 0

def clearCache (compiler : Compiler) : Compiler :=
  { compiler with cache := compiler.cache.map Lru.clear }

def executable? (compiler : Compiler) (handle : Handle) : Option Executable :=
  compiler.executables[handle]?

/-- The number of a key; a new key gets the next one. -/
def number (compiler : Compiler) (key : CacheKey) : Nat × Compiler :=
  match compiler.keys.findIdx? (· == key) with
  | some n => (n, compiler)
  | none => (compiler.keys.length, { compiler with keys := compiler.keys ++ [key] })

/-- Adds an executable for a program and keeps it under its key. -/
def add (compiler : Compiler) (key : CacheKey) (program : Program) : Handle × Compiler :=
  let handle := compiler.executables.size
  let (number, compiler) := compiler.number key
  let executable : Executable := { number, program, debug := compiler.config.debug }
  (handle,
    { compiler with
      executables := compiler.executables.push executable
      cache := compiler.cache.map fun cache => (cache.put key handle).2 })

/-- The executable that is kept under a key. -/
def lookup (compiler : Compiler) (key : CacheKey) : Option Handle × Compiler :=
  match compiler.cache with
  | none => (none, compiler)
  | some cache =>
    let (found, cache) := cache.get? key
    (found, { compiler with cache := some cache })

/-- The executable of an expression. -/
def compile (compiler : Compiler) (e : Expr) (signature : Signature) :
    Except CompileError Handle × Compiler :=
  match signature.validate with
  | .error reason => (.error (.malformedSignature reason), compiler)
  | .ok () =>
    let key := CacheKey.of compiler.config e signature
    match compiler.lookup key with
    | (some handle, compiler) => (.ok handle, compiler)
    | (none, compiler) =>
      match Program.ofExpr e signature compiler.config.inlineThreshold with
      | .error reason => (.error reason, compiler)
      | .ok program =>
        let (handle, compiler) := compiler.add key program
        (.ok handle, compiler)

/-- Reports a failed executable, unless it has been reported before. -/
def report (compiler : Compiler) (handle : Handle) : Compiler :=
  match compiler.sink, compiler.executable? handle with
  | some sink, some executable =>
    if !compiler.config.debug || compiler.reported.contains handle then compiler
    else
      { compiler with
        reported := handle :: compiler.reported
        reports := sink.persist ⟨executable.number, executable.program⟩ compiler.reports }
  | _, _ => compiler

/-- Reports an executable whose result is a failure. -/
def observe {α : Type} (compiler : Compiler) (handle : Handle) : Except Error α → Compiler
  | .ok _ => compiler
  | .error _ => compiler.report handle

end Compiler

/-! ### Running executables -/

/-- Results of an executable that are still to come. -/
structure Results (σ : Type) where
  handle : Handle
  cursor : Cursor σ

/-- A compiler together with the state of the host. -/
structure Session (σ : Type) where
  compiler : Compiler
  host : σ

namespace Session

/-- Runs something of an executable in the host and reports the executable if it fails. -/
def run {α : Type} (session : Session σ) (handle : Handle) (body : StateM σ (Except Error α)) :
    Except Error α × Session σ :=
  let (result, host) := body session.host
  (result, ⟨session.compiler.observe handle result, host⟩)

/-- The value of an executable on an input; none of a handle that is not the compiler's. -/
def call (session : Session σ) (host : Host σ) (handle : Handle) (input : Value)
    (params : Params) : Option (Except Error Value × Session σ) :=
  (session.compiler.executable? handle).map fun executable =>
    session.run handle (executable.program.call host input params)

/-- Starts an executable on an input. -/
def start (session : Session σ) (host : Host σ) (handle : Handle) (input : Value)
    (params : Params) : Option (Except Error (Results σ) × Session σ) :=
  (session.compiler.executable? handle).map fun executable =>
    let (result, session) := session.run handle (executable.program.start host input params)
    (result.map fun cursor => ⟨handle, cursor⟩, session)

/-- Takes the next result. -/
def next (session : Session σ) (results : Results σ) :
    Option (Except Error Value) × Results σ × Session σ :=
  let ((result, cursor), host) := results.cursor.next session.host
  let compiler := match result with
    | some r => session.compiler.observe results.handle r
    | none => session.compiler
  (result, { results with cursor }, ⟨compiler, host⟩)

end Session
end DataExpr
