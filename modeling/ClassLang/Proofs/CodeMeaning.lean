import ClassLang.Proofs.SessionSafety

/-!
# Generated code means what the bodies say

`Simulation` compares code and direct evaluation in any image of a class table. Here this becomes a
statement about sessions: in every state that a session reaches, the code that was generated for a
method and the body of the method have the same outcome (`exec_agrees_eval`). Values are compared by
what they stand for, so texts by their content, and a run that stops does so with the trap of the
evaluation.
-/

set_option autoImplicit false

namespace ClassLang.Session

open Direct (Datum)
open Machine (Agree Holds HoldAll Kept Live Loader MethodCode.start Texts Value Word callFunc exec
  maxTexts operands)
open Typed (Method)

variable {s : Session} {given : List Value}

/-- What evaluation finds in a session. -/
def store (s : Session) : Direct.Store := ⟨s.loader.memory, s.loader.texts⟩

/-- **Code generation preserves meaning.** Let a method of a class be given in a state that a
session reaches. The class is loaded with the code that was generated for it, and for arguments of
the declared types and every bound on the calls inside each other, executing the code of the method
ends like the evaluation of its body: with a word of the declared result type that stands for the
same value, or with the same trap. Runs are left out that make more texts than there are handles:
they lose texts. -/
theorem exec_agrees_eval (reached : s.Reached given) {id : ClassId} {c : Typed.Class} {index : Nat}
    {m : Method} (hc : s.table.get? id = some c) (hm : c.methods[index]? = some m) :
    ∃ loaded code body, s.loader.classes[id]? = some loaded ∧
      loaded.artifact.methods[index]? = some code ∧ m.body = some body ∧
      (∃ table source, table.Extends s.table ∧ table.get? id = some c ∧
        Code.generateClass table c source = .ok loaded.artifact) ∧
      ∀ (depth : Nat) (texts : Texts) (ws : List Word) (ds : List Datum),
        Kept s.loader.texts texts →
        HoldAll (Live s.table given) texts (operands c.ty m.signature) ws ds →
        ∀ run, run = exec s.loader.memory loaded
          (callFunc s.loader.memory s.loader.classes depth) code.code (MethodCode.start code ws) →
        maxTexts < (run.after texts).size ∨
          Agree (fun d w => Holds (Live s.table given) (run.after texts) m.returnType w d)
            (Direct.eval s.store (Direct.evalMethod s.table s.store depth)
              (.ofArgs m.isStatic ds) body)
            (run.outcome texts) := by
  have image := Loader.Fits.image reached.fits
  obtain ⟨loaded, hloaded, linked⟩ := image.linked id c hc
  obtain ⟨table, source, grown, hsmall, typed, generated⟩ := linked.generated
  obtain rfl : c.id = id := typed.id_eq
  obtain ⟨code, hcode, -⟩ := forall₂_getElem?_left (Code.generateClass_eq_ok generated).1 hm
  obtain ⟨body, hbody, -⟩ := (typed.methods m (List.mem_of_getElem? hm)).body
  refine ⟨loaded, code, body, hloaded, hcode, hbody, ⟨table, source, grown, hsmall, generated⟩, ?_⟩
  rintro depth texts ws ds kept holds run rfl
  -- the methods that the code calls follow their evaluations one call further down
  have methods := Machine.callFunc_follows image depth
  obtain ⟨code', body', hcode', hbody', follows⟩ := Machine.exec_follows image methods linked hm
  obtain rfl := Option.some.inj (hcode.symm.trans hcode')
  obtain rfl := Option.some.inj (hbody.symm.trans hbody')
  rcases Nat.lt_or_ge maxTexts (_ : Texts).size with hlt | hsize
  · exact Or.inl hlt
  · exact Or.inr ((follows texts ws ds kept holds).agree (Nat.not_lt_of_le hsize))

/-! ## An example -/

/-- What the session of the example finds under the class and the method that it runs. -/
theorem pointSession_show :
    ((pointSession.table.get? 0).bind fun c => c.methods[2]?.map fun m =>
      (c.path.text, m.name, m.isStatic, m.paramTypes)) = some ("Point", "show", false, []) := by
  decide +kernel

/-- In the example, the code of the method that was run agrees with its body, on the object that was
made and for every bound on the calls. -/
theorem exec_agrees_eval_pointShow :
    ∃ c m loaded code body, pointSession.table.get? 0 = some c ∧ c.methods[2]? = some m ∧
      m.name = "show" ∧ pointSession.loader.classes[0]? = some loaded ∧
      loaded.artifact.methods[2]? = some code ∧ m.body = some body ∧
      ∀ depth run, run = exec pointSession.loader.memory loaded
          (callFunc pointSession.loader.memory pointSession.loader.classes depth) code.code
          (MethodCode.start code [.i32 8]) →
        maxTexts < (run.after pointSession.loader.texts).size ∨
          Agree (fun d w => Holds (Live pointSession.table [.object "Point" 8])
              (run.after pointSession.loader.texts) m.returnType w d)
            (Direct.eval pointSession.store
              (Direct.evalMethod pointSession.table pointSession.store depth)
              (.ofArgs m.isStatic [.object 8]) body)
            (run.outcome pointSession.loader.texts) := by
  obtain ⟨c, hc, hfound⟩ := Option.bind_eq_some_iff.1 pointSession_show
  obtain ⟨m, hm, hfound⟩ := Option.map_eq_some_iff.1 hfound
  obtain ⟨hpath, hname, hstatic, hparams⟩ : c.path.text = "Point" ∧ m.name = "show" ∧
      m.isStatic = false ∧ m.paramTypes = [] := by
    simpa using hfound
  obtain ⟨loaded, code, body, hloaded, hcode, hbody, -, agrees⟩ :=
    exec_agrees_eval reached_pointSession hc hm
  refine ⟨c, m, loaded, code, body, hc, hm, hname, hloaded, hcode, hbody, ?_⟩
  intro depth run hrun
  refine agrees depth pointSession.loader.texts [.i32 8] [.object 8] (.refl _) ?_ run hrun
  have hid : c.id = 0 := (reached_pointSession.fits.loads.typed 0 c hc).id_eq
  have alive : Live pointSession.table [.object "Point" 8] 8 c.id := by
    refine ⟨c, hid ▸ hc, ?_⟩
    rw [hpath]
    exact List.mem_cons_self
  have hoperands : operands c.ty m.signature = [.object c.id c.name] := by
    rw [operands, Method.signature, hstatic, hparams]
    rfl
  rw [hoperands]
  exact .cons (.object alive) .nil

end ClassLang.Session
