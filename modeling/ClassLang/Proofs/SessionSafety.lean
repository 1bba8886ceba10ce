import ClassLang.Proofs.LoaderSafety
import ClassLang.Session

/-!
# Safety of sessions

A session makes requests one after the other. It may compile any sources, in any order, and any of
its requests may fail; the only rule is that an object that it passes in was given back to it before
(`Session.Reached`). Every state that it reaches fits (`Session.Reached.fits`), so no request meets
an address outside the memory, a handle without a text, or a word that is no value of its type
(`Session.request_safe`).

What compiling can do with one module is said once, in `Session.compileModule_cases`.

A handle of a text has 31 bits. A session that has made more texts than that has lost some of them,
and only there can a text be missing.
-/

set_option autoImplicit false

namespace ClassLang

open Machine (Live Loader Loading Passed Trap Value maxTexts)
open Resolve (ResolvedModule)
open Typed (ClassTable)

namespace Session

/-! ## What compiling a module does -/

theorem run_load {α : Type} (step : Loading α) (s : Session) :
    (load step).run s = ((step.run s.loader).1, { s with loader := (step.run s.loader).2 }) := rfl

/-- A class that is to be defined: the loader, the checked class and its artifact. -/
structure Definition where
  loader : Loader
  declared : Typed.Class
  artifact : Code.Artifact

/-- The definition that compiling a module comes to; none if it was compiled before or has a
fault. -/
def definition? (ids : List ClassId) (m : ResolvedModule) (s : Session) : Option Definition :=
  match s.module? m.origin.logical with
  | some _ => none
  | none =>
    match Typed.checkModule s.table m.origin.logical m.tree (importIds ids m) with
    | .error _ => none
    | .ok table =>
      match table.get? s.table.size with
      | none => none
      | some c =>
        match Code.generateClass table c m.source with
        | .error _ => none
        | .ok a => some ⟨s.loader, c, a⟩

/-- What a request does with one module: it was compiled before, there is a fault in it, or a class
is checked and generated for it, which the loader may then refuse. -/
theorem compileModule_cases (ids : List ClassId) (m : ResolvedModule) {s : Session}
    (typed : s.table.Typed) :
    (definition? ids m s = none ∧
      ((∃ compiled, s.module? m.origin.logical = some compiled ∧
          (compileModule ids m).run s = (.ok compiled.id, s)) ∨
        ∃ e, (compileModule ids m).run s = (.error e, s) ∧ e.isOfSearch = true)) ∨
    s.module? m.origin.logical = none ∧ ∃ c a, definition? ids m s = some ⟨s.loader, c, a⟩ ∧
      c.path = m.origin.logical ∧
      c.methods.map Typed.Method.name = m.tree.classDecl.methods.map Tree.Method.name ∧
      Typed.checkModule s.table m.origin.logical m.tree (importIds ids m) = .ok (s.table.push c) ∧
      (s.table.push c).Typed ∧ Code.generateClass (s.table.push c) c m.source = .ok a ∧
      ((∃ e l, (Loader.define a).run s.loader = (.error e, l) ∧
          (compileModule ids m).run s = (.error e, { s with loader := l })) ∨
        ∃ l, (Loader.define a).run s.loader = (.ok (), l) ∧
          (compileModule ids m).run s = (.ok s.table.size,
            ⟨s.table.push c, s.modules ++ [⟨m.origin, s.table.size, a⟩], l⟩)) := by
  rw [compileModule, run_get_bind, definition?]
  cases hmodule : s.module? m.origin.logical with
  | some compiled => exact Or.inl ⟨rfl, Or.inl ⟨compiled, rfl, rfl⟩⟩
  | none =>
    dsimp only
    cases hcheck : Typed.checkModule s.table m.origin.logical m.tree (importIds ids m) with
    | error e => exact Or.inl ⟨rfl, Or.inr ⟨_, rfl, rfl⟩⟩
    | ok table =>
      obtain ⟨c, rfl, hpath, -, hnames, typed'⟩ := Typed.checkModule_typed typed hcheck
      dsimp only
      rw [ClassTable.get?_push_size]
      dsimp only
      cases hgenerate : Code.generateClass (s.table.push c) c m.source with
      | error e => exact Or.inl ⟨rfl, Or.inr ⟨_, rfl, rfl⟩⟩
      | ok a =>
        refine Or.inr ⟨rfl, c, a, rfl, hpath, hnames, rfl, typed', hgenerate, ?_⟩
        dsimp only
        rw [run_bind, run_load]
        rcases (Loader.define a).run s.loader with ⟨e | _, l⟩
        · exact Or.inl ⟨e, l, rfl, rfl⟩
        · exact Or.inr ⟨l, rfl, rfl⟩

/-! ## Compiling -/

/-- The loader of a session fits its table and what it was given back. -/
def Fits (given : List Value) (s : Session) : Prop := s.loader.Fits s.table given

/-- Compiling keeps that a session fits, and where it fails, that is a refusal. -/
abbrev Compiles {α : Type} (given : List Value) (x : Request α) : Prop :=
  Keeps (Fits given) (fun failure => failure.isRefusal = true) x

theorem fits_initial : Fits [] initial :=
  ⟨Loader.loads_initial, Machine.Memory.sound_initial, fun _ _ h => nomatch h⟩

section Compiling

variable {s : Session} {given : List Value}

/-- Defining a generated class and taking it into the table. -/
theorem Fits.define (fits : Fits given s) {c : Typed.Class} {a : Code.Artifact}
    {source : String} (typed : (s.table.push c).Typed)
    (plain : ∀ m ∈ c.methods, Plain m.name)
    (generated : Code.generateClass (s.table.push c) c source = .ok a)
    (modules : List CompiledModule) :
    (∃ e l, e.isRefusal = true ∧ (Loader.define a).run s.loader = (.error e, l) ∧
        Fits given { s with loader := l }) ∨
      ∃ l, (Loader.define a).run s.loader = (.ok (), l) ∧
        Fits given ⟨s.table.push c, modules, l⟩ := by
  rcases Loader.define_cases s.loader a with
    ⟨-, hsame⟩ | ⟨hfresh, ⟨-, hfailed⟩ | ⟨loaded, hlink, hdone⟩⟩
  · exact Or.inl ⟨_, _, rfl, hsame, fits⟩
  · exact Or.inl ⟨_, _, rfl, hfailed, Loader.Fits.named fits hfresh⟩
  · exact Or.inr ⟨_, hdone, Loader.Fits.extended fits hfresh typed plain generated hlink⟩

theorem compiles_compileModule (ids : List ClassId) {m : ResolvedModule}
    (plain : ∀ method ∈ m.tree.classDecl.methods, Plain method.name) :
    Compiles given (compileModule ids m) := by
  intro s fits
  rcases compileModule_cases ids m fits.loads.typed with
    ⟨-, ⟨compiled, -, hrun⟩ | ⟨e, hrun, hsearch⟩⟩ |
      ⟨-, c, a, -, -, hnames, -, typed, generated, hdefine⟩
  · rw [hrun]
    exact ⟨fits, fun _ h => nomatch h⟩
  · rw [hrun]
    exact ⟨fits, fun _ h => Except.error.inj h ▸ Failure.isRefusal_of_isOfSearch hsearch⟩
  -- the checked methods have the names of the parsed ones
  have plainNames : ∀ method ∈ c.methods, Plain method.name := by
    intro method hmethod
    have hname : method.name ∈ c.methods.map Typed.Method.name := List.mem_map_of_mem hmethod
    rw [hnames] at hname
    obtain ⟨written, hwritten, hsame⟩ := List.mem_map.1 hname
    rw [← hsame]
    exact plain written hwritten
  rcases fits.define typed plainNames generated (s.modules ++ [⟨m.origin, s.table.size, a⟩]) with
    ⟨e, l, he, hdone, hfits⟩ | ⟨l, hdone, hfits⟩ <;>
    rcases hdefine with ⟨e', l', hdefine, hrun⟩ | ⟨l', hdefine, hrun⟩ <;>
    cases hdone.symm.trans hdefine <;> rw [hrun]
  · exact ⟨hfits, fun _ h => Except.error.inj h ▸ he⟩
  · exact ⟨hfits, fun _ h => nomatch h⟩

theorem compiles_compileAll {modules : List ResolvedModule}
    (plain : ∀ m ∈ modules, ∀ method ∈ m.tree.classDecl.methods, Plain method.name)
    (ids : List ClassId) : Compiles given (compileAll ids modules) := by
  induction modules generalizing ids with
  | nil => exact .pure _
  | cons m rest ih =>
    obtain ⟨first, others⟩ := List.forall_mem_cons.1 plain
    exact .bind (compiles_compileModule ids first) fun id => ih others _

theorem compiles_compile (sources : Sources) (logical : ModulePath) :
    Compiles given (compile sources logical) := by
  unfold compile
  rcases Resolve.linearize_cases sources logical with
    ⟨failure, hfailure, hsearch⟩ | ⟨modules, hmodules, plain⟩
  · rw [hfailure]
    exact .throw (Failure.isRefusal_of_isOfSearch hsearch)
  rw [hmodules]
  refine .bind (compiles_compileAll plain []) fun _ => .get_bind fun s _ => ?_
  split
  · exact .pure _
  · exact .throw rfl

end Compiling

/-! ## Requests of a session -/

/-- A request to a session. -/
inductive Step where
  | compile (sources : Sources) (logical : ModulePath)
  | newObject (logical : ModulePath) (fields : List Value)
  | field (object : Value) (name : String)
  | invoke (logical : ModulePath) (method : String) (args : List Value)

/-- What a request gives. -/
inductive Answer where
  | compiled (module : CompiledModule)
  | value (v : Value)

namespace Step

def run : Step → Request Answer
  | .compile sources logical => Answer.compiled <$> Session.compile sources logical
  | .newObject logical fields => Answer.value <$> Session.newObject logical fields
  | .field object name => Answer.value <$> Session.field object name
  | .invoke logical method args => Answer.value <$> Session.invoke logical method args

/-- The values that are passed in. -/
def inputs : Step → List Value
  | .compile _ _ => []
  | .newObject _ fields => fields
  | .field object _ => [object]
  | .invoke _ _ args => args

/-- The values that a request may give, by the types that the classes of the table declare. -/
def Expects (table : ClassTable) (given : List Value) : Step → Value → Prop
  | .compile _ _ => fun _ => False
  | .newObject logical _ => Loader.NewValue table logical.text
  | .field object name => Loader.FieldValue table given object name
  | .invoke logical method _ => Loader.ResultValue table given logical.text method

/-- The failures that a request may have: it is refused before anything runs, there is no room for a
new object, or a method stops for an ordinary reason. -/
inductive Admits : Step → Failure → Prop where
  | refused {step : Step} {e : Failure} (refusal : e.isRefusal = true) : Admits step e
  | noRoom {logical : ModulePath} {fields : List Value} :
      Admits (.newObject logical fields) .outOfMemory
  | stopped {logical : ModulePath} {method : String} {args : List Value}
      {className named : String} {line : Nat} {trap : Trap} (ordinary : trap.isOrdinary = true) :
      Admits (.invoke logical method args) (.runtime className named line trap)

end Step

/-- The values that a request gives back. -/
def answered : Except Failure Answer → List Value
  | .ok (.value v) => [v]
  | _ => []

/-- The states that a session can reach, with the values that it was given back. Sources may differ
from request to request, and requests may fail. -/
inductive Reached : Session → List Value → Prop where
  | initial : Reached .initial []
  | step {s : Session} {given : List Value} (before : Reached s given) (step : Step)
      (passed : Passed given step.inputs) :
      Reached (step.run.run s).2 (given ++ answered (step.run.run s).1)

/-- How a request ends that a session makes. -/
structure Step.Safe (step : Step) (given : List Value) (s : Session)
    (outcome : Except Failure Answer) (s' : Session) : Prop where
  fits : Fits (given ++ answered outcome) s'
  value : ∀ v, outcome = .ok (.value v) → step.Expects s.table given v
  failure : ∀ e, outcome = .error e →
    step.Admits e ∨ maxTexts < s'.loader.texts.size ∧ e.isLostText = true

section Steps

variable {s s' : Session} {given : List Value}

/-- Compiling gives no value back. -/
theorem answered_compile (outcome : Except Failure CompiledModule) :
    answered (outcome.map Answer.compiled) = [] := by
  cases outcome <;> rfl

/-- A request for a value is safe when the step of the loader is. -/
theorem safe_of_load {x : Loading Value} {step : Step} {admitted : Failure → Prop}
    (admits : ∀ e, admitted e → step.Admits e)
    (safe : ∀ outcome l', x.run s.loader = (outcome, l') →
      Loader.Safe s.table given (step.Expects s.table given) admitted outcome l') :
    step.Safe given s ((Answer.value <$> load x).run s).1 ((Answer.value <$> load x).run s).2 := by
  rw [run_map, run_load]
  rcases hrun : x.run s.loader with ⟨outcome, l'⟩
  obtain ⟨fits, hvalue, hfailure⟩ := safe outcome l' hrun
  have hanswered : answered (outcome.map Answer.value) = Loader.returned outcome := by
    cases outcome <;> rfl
  refine ⟨?_, ?_, ?_⟩
  · rw [hanswered]
    exact fits
  · intro v hv
    cases outcome with
    | error e => cases hv
    | ok v' =>
      cases hv
      exact hvalue v rfl
  · intro e he
    cases outcome with
    | error e' =>
      cases he
      exact (hfailure e rfl).imp_left (admits e)
    | ok v => cases he

theorem Reached.compile (before : s.Reached given) (sources : Sources) (logical : ModulePath) :
    Reached ((Step.compile sources logical).run.run s).2 given := by
  have reached := before.step (.compile sources logical) fun _ _ h => nomatch h
  have hnone : answered ((Step.compile sources logical).run.run s).1 = [] := by
    rw [Step.run, run_map]
    exact answered_compile _
  rw [hnone, List.append_nil] at reached
  exact reached

/-- One request of a session keeps that it fits, and ends as it should. -/
theorem Fits.safe (fits : Fits given s) (step : Step) (passed : Passed given step.inputs) :
    step.Safe given s (step.run.run s).1 (step.run.run s).2 := by
  cases step with
  | compile sources logical =>
    obtain ⟨hfits, hrefusal⟩ := compiles_compile sources logical s fits
    rw [Step.run, run_map]
    generalize (compile sources logical).run s = ended at hfits hrefusal ⊢
    obtain ⟨outcome, s'⟩ := ended
    refine ⟨?_, ?_, ?_⟩
    · rw [answered_compile, List.append_nil]
      exact hfits
    · intro v hv
      cases outcome <;> cases hv
    · intro e he
      cases outcome with
      | error e' =>
        cases he
        exact Or.inl (.refused (hrefusal e rfl))
      | ok module => cases he
  | newObject logical fields =>
    refine safe_of_load ?_ fun outcome l' h => Loader.Fits.newObject fits passed h
    rintro e (hrefusal | rfl)
    · exact .refused hrefusal
    · exact .noRoom
  | field object name =>
    exact safe_of_load (fun _ => .refused) fun outcome l' h => Loader.Fits.field fits passed h
  | invoke logical method args =>
    refine safe_of_load ?_ fun outcome l' h => Loader.Fits.invoke fits passed h
    rintro e (hrefusal | ⟨className, named, line, trap, rfl, ordinary⟩)
    · exact .refused hrefusal
    · exact .stopped ordinary

/-- Every state that a session reaches fits: its classes are typed, loaded and linked, and the
objects that were given back hold values of the types of their slots. -/
theorem Reached.fits (reached : s.Reached given) : Fits given s := by
  induction reached with
  | initial => exact fits_initial
  | step _ step passed ih => exact (ih.safe step passed).fits

/-- **Sessions are safe at run time.** Whatever was requested before, and with which outcome, a
request that passes in only objects that were given back gives a value of the type that is declared
for it, or fails for an admitted reason. In particular no address lies outside the memory, every
handle has its text, and every word is a value of its type; a method stops only when it divides by
zero, overflows in a division, takes a power out of range, cannot read a number or nests its calls
too deeply. The one exception is a text that is lost when a session has made more texts than there
are handles. -/
theorem request_safe (reached : s.Reached given) (step : Step)
    (passed : Passed given step.inputs) :
    (∀ v, (step.run.run s).1 = .ok (.value v) → step.Expects s.table given v) ∧
      ∀ e, (step.run.run s).1 = .error e →
        step.Admits e ∨
          maxTexts < (step.run.run s).2.loader.texts.size ∧ e.isLostText = true := by
  have safe := reached.fits.safe step passed
  exact ⟨safe.value, safe.failure⟩

end Steps

/-! ## An example -/

/-- The files of a session with one module. -/
def pointFiles : Files := ⟨[(⟨["Point.nz"]⟩, .text Typed.pointText)]⟩

/-- The requests that compile the module and make an object of its class. -/
def pointCompile : Step := .compile pointFiles.sources Typed.pointPath

def pointNew : Step := .newObject Typed.pointPath [.int 3, .str "p"]

/-- The session after the module was compiled. -/
def pointCompiled : Session := (pointCompile.run.run .initial).2

/-- The session after an object was made. -/
def pointSession : Session := (pointNew.run.run pointCompiled).2

/-- The request that runs a method of the object. -/
def pointShow : Step := .invoke Typed.pointPath "show" [.object "Point" 8]

/-- The value that a request gives. -/
def value? : Except Failure Answer → Option Value
  | .ok (.value v) => some v
  | _ => none

theorem eq_of_value? {outcome : Except Failure Answer} {v : Value} (h : value? outcome = some v) :
    outcome = .ok (.value v) := by
  unfold value? at h
  split at h
  · cases h
    rfl
  · cases h

theorem run_pointSession :
    value? (pointNew.run.run pointCompiled).1 = some (.object "Point" 8) ∧
      value? (pointShow.run.run pointSession).1 = some (.str "p: 5") := by
  decide +kernel

theorem reached_pointSession : pointSession.Reached [.object "Point" 8] := by
  have compiled : pointCompiled.Reached [] := Reached.initial.compile _ _
  have made := compiled.step pointNew (by intro _ _ h; simp [pointNew, Step.inputs] at h)
  rw [eq_of_value? run_pointSession.1] at made
  exact made

/-- In the example, the method that runs on the new object gives a text, as it declares. -/
theorem request_safe_pointShow :
    (pointShow.run.run pointSession).1 = .ok (.value (.str "p: 5")) ∧
      pointShow.Expects pointSession.table [.object "Point" 8] (.str "p: 5") := by
  have hanswer := eq_of_value? run_pointSession.2
  have safe := request_safe reached_pointSession pointShow fun _ _ h => h
  exact ⟨hanswer, safe.1 _ hanswer⟩

end Session

end ClassLang
