import DataExpr.Compiler.Session
import DataExpr.Proofs.LabelSafety
import DataExpr.Proofs.LruContents
import DataExpr.Proofs.SharingPattern

/-!
# Transparency of the cache of executables

A compiler keeps executables under keys that see everything of an expression but its
identities and what its constant sets and dictionaries hold.  As long as no such constants are
compiled, an executable that is found in the cache is the one that would be made anew, over
every sequence of compilations and clearings of the cache (`Compiler.compiled_after`).
-/

namespace DataExpr

variable {σ : Type} {r : Registry}

/-! ### Keys -/

namespace Signature

/-- A signature whose defaults likeness sees wholly. -/
def Exact (r : Registry) (signature : Signature) : Prop :=
  ∀ p ∈ signature, ∀ v, p.default = some v → v.Exact r

theorem alike_self (signature : Signature) : signature.alike signature = true := by
  induction signature with
  | nil => rfl
  | cons p ps ih =>
    obtain ⟨name, default⟩ := p
    cases default <;> simp [alike, ih, Value.alike_self]

theorem eq_of_alike {s t : Signature} (hs : s.Exact r) (ht : t.Exact r)
    (h : s.alike t = true) : s = t := by
  induction s generalizing t with
  | nil =>
    cases t with
    | nil => rfl
    | cons => cases h
  | cons p ps ih =>
    cases t with
    | nil => cases h
    | cons q qs =>
      obtain ⟨name, default⟩ := p
      obtain ⟨name', default'⟩ := q
      simp only [alike, Bool.and_eq_true, beq_iff_eq] at h
      obtain ⟨⟨rfl, hdefault⟩, htail⟩ := h
      have tail := ih (fun p hp => hs p (List.mem_cons_of_mem _ hp))
        (fun p hp => ht p (List.mem_cons_of_mem _ hp)) htail
      rw [tail]
      cases default <;> cases default'
      case none.none => rfl
      case some.some v w =>
        rw [Value.eq_of_alike v w (hs _ List.mem_cons_self v rfl) (ht _ List.mem_cons_self w rfl)
          hdefault]
      all_goals cases hdefault

end Signature

namespace CacheKey

/-- A key of an expression and a signature that likeness sees wholly. -/
structure Valid (r : Registry) (key : CacheKey) : Prop where
  coherent : key.expr.Coherent
  expr : key.expr.Exact r
  signature : key.signature.Exact r
  sharing : key.sharing = key.expr.sharingPattern

/-- What equality of keys sees. -/
def shape (key : CacheKey) : List Nat × Weight.Threshold × Bool × Signature × Expr :=
  (key.sharing, key.threshold, key.debug, key.signature, key.expr.rename fun _ => 0)

theorem same_iff {k l : CacheKey} (hk : k.Valid r) (hl : l.Valid r) :
    (k == l) = true ↔ k.shape = l.shape := by
  change k.same l = true ↔ _
  simp only [same, shape, Bool.and_eq_true, beq_iff_eq, Prod.mk.injEq,
    Expr.alike_iff hk.expr hl.expr]
  constructor
  · rintro ⟨⟨⟨⟨hsharing, hthreshold⟩, hdebug⟩, hsignature⟩, hexpr⟩
    exact ⟨hsharing, hthreshold, hdebug,
      Signature.eq_of_alike hk.signature hl.signature hsignature, hexpr⟩
  · rintro ⟨hsharing, hthreshold, hdebug, hsignature, hexpr⟩
    exact ⟨⟨⟨⟨hsharing, hthreshold⟩, hdebug⟩, hsignature ▸ k.signature.alike_self⟩, hexpr⟩

/-- The program that a key stands for. -/
def program (key : CacheKey) : Except CompileError Program :=
  Program.ofExpr key.expr key.signature key.threshold

/-- Keys of one shape stand for one program. -/
theorem program_eq {k l : CacheKey} (hk : k.Valid r) (hl : l.Valid r) (h : k.shape = l.shape) :
    k.program = l.program := by
  simp only [shape, Prod.mk.injEq] at h
  obtain ⟨hsharing, hthreshold, -, hsignature, hexpr⟩ := h
  rw [hk.sharing, hl.sharing] at hsharing
  rw [program, program, hthreshold, hsignature]
  exact Program.ofExpr_eq_of_alike hk.coherent hl.coherent hk.expr hl.expr
    ((Expr.alike_iff hk.expr hl.expr).mpr hexpr) hsharing _ _

end CacheKey

/-! ### Compilers -/

namespace Compiler

/-- What changes the cache of a compiler. -/
inductive Step where
  | compile (e : Expr) (signature : Signature)
  | clearCache

/-- A step that compiles what likeness sees wholly, if it compiles anything. -/
def Step.Exact (r : Registry) : Step → Prop
  | compile e signature => e.Coherent ∧ e.Exact r ∧ signature.Exact r
  | clearCache => True

def step (compiler : Compiler) : Step → Compiler
  | .compile e signature => (compiler.compile e signature).2
  | .clearCache => compiler.clearCache

def after (compiler : Compiler) (steps : List Step) : Compiler := steps.foldl step compiler

/-- The program of the executable that an expression is compiled to. -/
def compiled (compiler : Compiler) (e : Expr) (signature : Signature) :
    Except CompileError (Option Program) :=
  (compiler.compile e signature).1.map fun handle =>
    ((compiler.compile e signature).2.executable? handle).map Executable.program

/-- The program of an expression under the settings of a compiler. -/
def fresh (config : Config) (e : Expr) (signature : Signature) : Except CompileError Program := do
  signature.validate.mapError .malformedSignature
  Program.ofExpr e signature config.inlineThreshold

/-- A handle leads to the program that a key stands for. -/
def Serves (executables : Array Executable) (key : CacheKey) (handle : Handle) : Prop :=
  ∃ x, executables[handle]? = some x ∧ key.program = .ok x.program

/-- Every executable that is kept is the one of its key. -/
def Sound (r : Registry) (compiler : Compiler) : Prop :=
  ∀ cache, compiler.cache = some cache →
    cache.Sound CacheKey.shape (CacheKey.Valid r) (Serves compiler.executables)

theorem Serves.push {executables : Array Executable} {key : CacheKey} {handle : Handle}
    (h : Serves executables key handle) (x : Executable) :
    Serves (executables.push x) key handle := by
  obtain ⟨y, hy, hprogram⟩ := h
  refine ⟨y, ?_, hprogram⟩
  rw [Array.getElem?_push_lt (Array.getElem?_eq_some_iff.mp hy).1]
  exact congrArg some (Array.getElem?_eq_some_iff.mp hy).2

theorem sound_build {config : Config} {sink : Option Sink} {compiler : Compiler}
    (h : build config sink = .ok compiler) : compiler.Sound r ∧ compiler.config = config := by
  unfold build newCache at h
  split at h
  · obtain rfl := Except.ok.inj h
    exact ⟨fun cache hcache => (by cases hcache), rfl⟩
  · cases hnew : (Lru.new config.cacheCapacity : Except LruError (Lru CacheKey Handle)) with
    | error e =>
      rw [hnew] at h
      cases h
    | ok fresh =>
      rw [hnew] at h
      obtain rfl := Except.ok.inj h
      refine ⟨fun cache hcache => ?_, rfl⟩
      obtain rfl := Option.some.inj hcache
      exact Lru.sound_new hnew

/-- What a compiler has after a lookup: the cache is still sound, and an executable that is
    found is the one of the key. -/
theorem sound_lookup {compiler : Compiler} (h : compiler.Sound r) {key : CacheKey}
    (hkey : key.Valid r) : (compiler.lookup key).2.Sound r ∧
      (compiler.lookup key).2.executables = compiler.executables ∧
      (compiler.lookup key).2.config = compiler.config ∧
      ∀ handle, (compiler.lookup key).1 = some handle → Serves compiler.executables key handle := by
  unfold lookup
  split
  · exact ⟨h, rfl, rfl, fun _ hfound => by cases hfound⟩
  · rename_i cache hcache
    have hsound := h cache hcache
    refine ⟨fun cache' hcache' => ?_, rfl, rfl, fun handle hfound => ?_⟩
    · obtain rfl := Option.some.inj hcache'
      exact hsound.get? key
    · refine hsound.good_of_get? (fun _ _ => CacheKey.same_iff) (fun k l v hk hl hkl hv => ?_) hkey
        hfound
      obtain ⟨x, hx, hprogram⟩ := hv
      exact ⟨x, hx, CacheKey.program_eq hk hl hkl ▸ hprogram⟩

/-- Numbering a key changes nothing but the keys. -/
theorem number_snd (compiler : Compiler) (key : CacheKey) :
    ∃ keys, (compiler.number key).2 = { compiler with keys } := by
  unfold number
  split
  · exact ⟨_, rfl⟩
  · exact ⟨_, rfl⟩

theorem sound_add {compiler : Compiler} (h : compiler.Sound r) {key : CacheKey}
    (hkey : key.Valid r) {program : Program} (hprogram : key.program = .ok program) :
    (compiler.add key program).2.Sound r ∧
      (compiler.add key program).2.config = compiler.config ∧
      ((compiler.add key program).2.executable? (compiler.add key program).1).map
        Executable.program = some program := by
  obtain ⟨keys, hkeys⟩ := compiler.number_snd key
  unfold add
  dsimp only
  rw [hkeys]
  generalize hx : (⟨(compiler.number key).1, program, compiler.config.debug⟩ : Executable) = x
  have stored : (compiler.executables.push x)[compiler.executables.size]? = some x :=
    Array.getElem?_push_size
  refine ⟨fun cache hcache => ?_, rfl, ?_⟩
  · obtain ⟨before, hbefore, rfl⟩ := Option.map_eq_some_iff.mp hcache
    refine Lru.Sound.put (fun _ _ => CacheKey.same_iff) (fun k l v hk hl hkl hv => ?_)
      ((h before hbefore).mono fun k v hv => hv.push x) hkey ⟨x, stored, ?_⟩
    · obtain ⟨y, hy, hyprogram⟩ := hv
      exact ⟨y, hy, CacheKey.program_eq hk hl hkl ▸ hyprogram⟩
    · rw [hprogram, ← hx]
  · rw [executable?, stored, ← hx]
    rfl

/-- A compilation has the result that it would have without a cache, and leaves a sound cache. -/
theorem sound_compile {compiler : Compiler} (h : compiler.Sound r) {e : Expr}
    {signature : Signature} (exact : (Step.compile e signature).Exact r) :
    (compiler.compile e signature).2.Sound r ∧
      (compiler.compile e signature).2.config = compiler.config ∧
      compiler.compiled e signature = (fresh compiler.config e signature).map some := by
  unfold compiled compile fresh
  cases signature.validate with
  | error reason => exact ⟨h, rfl, rfl⟩
  | ok u =>
    dsimp only
    have hkey : (CacheKey.of compiler.config e signature).Valid r :=
      ⟨exact.1, exact.2.1, exact.2.2, rfl⟩
    obtain ⟨hsound, hexecutables, hconfig, hfound⟩ := sound_lookup h hkey
    generalize compiler.lookup (CacheKey.of compiler.config e signature) = found
      at hsound hexecutables hconfig hfound ⊢
    obtain ⟨handle, found⟩ := found
    cases handle with
    | some handle =>
      obtain ⟨x, hx, hprogram⟩ := hfound handle rfl
      refine ⟨hsound, hconfig, ?_⟩
      have program : Program.ofExpr e signature compiler.config.inlineThreshold =
          .ok x.program := hprogram
      change Except.ok ((found.executables[handle]?).map Executable.program) = _
      rw [hexecutables, hx]
      change _ = (Program.ofExpr e signature compiler.config.inlineThreshold).map some
      rw [program]
      rfl
    | none =>
      dsimp only at hconfig hsound ⊢
      rw [hconfig]
      change _ ∧ _ ∧ _ = (Program.ofExpr e signature compiler.config.inlineThreshold).map some
      cases hprogram : Program.ofExpr e signature compiler.config.inlineThreshold with
      | error reason => exact ⟨hsound, hconfig, rfl⟩
      | ok program =>
        obtain ⟨hadded, hkept, hstored⟩ := sound_add hsound hkey hprogram
        refine ⟨hadded, hkept.trans hconfig, congrArg Except.ok ?_⟩
        exact hstored

theorem sound_step {compiler : Compiler} (h : compiler.Sound r) {step : Step}
    (exact : step.Exact r) :
    (compiler.step step).Sound r ∧ (compiler.step step).config = compiler.config := by
  cases step with
  | compile e signature =>
    obtain ⟨hsound, hconfig, -⟩ := sound_compile h exact
    exact ⟨hsound, hconfig⟩
  | clearCache =>
    refine ⟨fun cache hcache => ?_, rfl⟩
    obtain ⟨before, -, rfl⟩ := Option.map_eq_some_iff.mp hcache
    exact .clear

/-- Over every sequence of steps the cache stays sound. -/
theorem sound_after {compiler : Compiler} (h : compiler.Sound r) {steps : List Step}
    (exact : ∀ s ∈ steps, s.Exact r) :
    (compiler.after steps).Sound r ∧ (compiler.after steps).config = compiler.config := by
  induction steps generalizing compiler with
  | nil => exact ⟨h, rfl⟩
  | cons s steps ih =>
    obtain ⟨hsound, hconfig⟩ := sound_step h (exact s List.mem_cons_self)
    obtain ⟨hrest, hkept⟩ := ih hsound fun t ht => exact t (List.mem_cons_of_mem _ ht)
    exact ⟨hrest, hkept.trans hconfig⟩

/-- Whatever has been compiled before, an expression is compiled as if there were no cache. -/
theorem compiled_after {config : Config} {sink : Option Sink} {compiler : Compiler}
    (h : build config sink = .ok compiler) {steps : List Step} (exactSteps : ∀ s ∈ steps, s.Exact r)
    {e : Expr} {signature : Signature} (exact : (Step.compile e signature).Exact r) :
    (compiler.after steps).compiled e signature = (fresh config e signature).map some := by
  obtain ⟨hsound, hconfig⟩ := sound_build h
  obtain ⟨hafter, hkept⟩ := sound_after hsound exactSteps
  rw [(sound_compile hafter exact).2.2, hkept, hconfig]

/-- What a call of the executable of an expression gives, with the state of the host after it. -/
def outcome (compiler : Compiler) (host : Host σ) (e : Expr) (signature : Signature)
    (input : Value) (params : Params) (world : σ) :
    Except CompileError (Option (Except Error Value × σ)) :=
  (compiler.compile e signature).1.map fun handle =>
    ((⟨(compiler.compile e signature).2, world⟩ : Session σ).call host handle input params).map
      fun called => (called.1, called.2.host)

theorem outcome_eq (compiler : Compiler) (host : Host σ) (e : Expr) (signature : Signature)
    (input : Value) (params : Params) (world : σ) :
    compiler.outcome host e signature input params world =
      (compiler.compiled e signature).map (Option.map fun program =>
        program.call host input params world) := by
  unfold outcome compiled
  cases (compiler.compile e signature).1 with
  | error reason => rfl
  | ok handle =>
    refine congrArg Except.ok ?_
    unfold Session.call
    dsimp only
    cases (compiler.compile e signature).2.executable? handle <;> rfl

/-- **The cache of executables is transparent**, as long as no constant sets and dictionaries are
compiled.  Whatever a compiler has compiled and cleared before, a compiler without a cache
compiles the same expressions, and calls of the executables give the same results. -/
theorem cache_transparent {config : Config} {sink sink' : Option Sink}
    {compiler uncached : Compiler} (h : build config sink = .ok compiler)
    (huncached : build { config with cacheCapacity := 0 } sink' = .ok uncached)
    {steps : List Step} (exactSteps : ∀ s ∈ steps, s.Exact r) {e : Expr} {signature : Signature}
    (exact : (Step.compile e signature).Exact r) (host : Host σ) (input : Value) (params : Params)
    (world : σ) :
    (compiler.after steps).outcome host e signature input params world =
      uncached.outcome host e signature input params world := by
  have none_before : ∀ s ∈ ([] : List Step), s.Exact r := fun s hs => absurd hs List.not_mem_nil
  have alone := compiled_after huncached none_before exact
  rw [outcome_eq, outcome_eq, compiled_after h exactSteps exact]
  exact congrArg _ alone.symm

/-- The input added to itself, through one handle. -/
def twice (i j : Nat) : Expr := .mk i (.binary .add (.mk j .input) (.mk j .input))

theorem within_twice {i j : Nat} {d : Expr} (h : Expr.Within d (twice i j)) :
    d = twice i j ∨ d = .mk j .input := by
  rcases h.cases with rfl | ⟨c, hc, h⟩
  · exact .inl rfl
  have hc : c = .mk j .input := by simpa [twice, Expr.children, Expr.node, Node.children] using hc
  rw [hc] at h
  rcases h.cases with rfl | ⟨c, hc, -⟩
  · exact .inr rfl
  · exact absurd hc List.not_mem_nil

theorem exact_twice {i j : Nat} (h : i ≠ j) (r : Registry) :
    (Step.compile (twice i j) []).Exact r := by
  refine ⟨fun c d hc hd hid => ?_, fun c hc => ?_, fun p hp => absurd hp List.not_mem_nil⟩
  · rcases within_twice hc with rfl | rfl <;> rcases within_twice hd with rfl | rfl <;>
      simp_all [twice, Expr.id]
  · rcases within_twice hc with rfl | rfl <;> exact trivial

/-- A copy of an expression is found in the cache. -/
theorem cache_transparent_copy : ∃ compiler uncached,
    build Config.standard none = .ok compiler ∧
      build { Config.standard with cacheCapacity := 0 } none = .ok uncached ∧
        (compiler.after [.compile (twice 0 1) []]).outcome Host.none (twice 3 2) [] (.int 1) .none
            () =
          uncached.outcome Host.none (twice 3 2) [] (.int 1) .none () := by
  let registry : Registry := ⟨fun i => ⟨i, "", true⟩, fun _ => ("", [])⟩
  refine ⟨_, _, rfl, rfl, cache_transparent (r := registry) rfl rfl (fun s hs => ?_)
    (exact_twice (by decide) registry) Host.none (.int 1) .none ()⟩
  rw [List.mem_singleton.mp hs]
  exact exact_twice (by decide) registry

/-- A constant dictionary. -/
def entry (key : String) (value : Int64) : Expr :=
  .mk 0 (.constant (.dict [(.str key, .int value)]))

/-- Whether a call gives a value. -/
def gives (outcome : Except CompileError (Option (Except Error Value × Unit))) (v : Value) : Bool :=
  match outcome with
  | .ok (some (.ok w, _)) => w == v
  | _ => false

/-- Keys do not see what constant dictionaries hold. -/
theorem cached_dict_returned : ∃ compiler uncached,
    build Config.standard none = .ok compiler ∧
      build { Config.standard with cacheCapacity := 0 } none = .ok uncached ∧
        gives ((compiler.after [.compile (entry "a" 1) []]).outcome Host.none (entry "b" 2) [] .null
          .none ()) (.dict [(.str "a", .int 1)]) = true ∧
        gives (uncached.outcome Host.none (entry "b" 2) [] .null .none ())
          (.dict [(.str "b", .int 2)]) = true := by
  exact ⟨_, _, rfl, rfl, by decide +kernel, by decide +kernel⟩

end Compiler

end DataExpr
