import LoxBytecode.Proofs.Compile.Forms
import LoxBytecode.Proofs.Session.Relabeling
import LoxBytecode.Proofs.Session.Twins

/-!
# Compilations without Garbage

While nothing was reported, a compilation that began in an empty heap makes no garbage
(`CompileM.tight`). The compilation of a script names every function that it begins right
away, and names nothing else (`CompileM.namesOnce_script`).
-/

namespace LoxBytecode

open Heap

/-! ### What functions hold -/

namespace Session

/-- The functions being compiled hold what they held, or the innermost one of them has one more
constant. -/
inductive Adds (p : Value → Prop) (s t : Session) : Prop
  | nothing : t.functions.cores = s.functions.cores → Adds p s t
  | constant {v : Value} : p v → t.functions.cores =
      (s.functions.current.function, s.chunk.constants.push v) ::
        s.functions.enclosing.map FunctionState.core → Adds p s t

variable {p : Value → Prop} {s t : Session}

/-- What only adds constants of a kind only adds those of a wider one. -/
theorem Adds.mono {q : Value → Prop} (h : s.Adds p t) (hpq : ∀ v, p v → q v) : s.Adds q t := by
  cases h with
  | nothing hcores => exact .nothing hcores
  | constant hv hcores => exact .constant (hpq _ hv) hcores

/-- The functions that are being compiled stay the same. -/
theorem Adds.handles (h : s.Adds p t) : t.functions.handles = s.functions.handles := by
  cases h with
  | nothing hcores | constant _ hcores =>
      rw [FunctionStack.handles, hcores]
      rfl

/-- No constant is lost. -/
theorem Adds.pool (h : s.Adds p t) : s.functions.pool ⊆ t.functions.pool := by
  cases h with
  | nothing hcores =>
      rw [FunctionStack.pool, FunctionStack.pool, hcores]
      exact List.Subset.refl _
  | constant _ hcores =>
      rw [FunctionStack.pool, FunctionStack.pool, hcores]
      refine List.append_subset.mpr ⟨fun w hw => List.mem_append_left _ ?_,
        List.subset_append_right _ _⟩
      exact Array.mem_toList_iff.mpr (Array.mem_push_of_mem _ (Array.mem_toList_iff.mp hw))

/-- A diagnostic adds no constant. -/
theorem adds_report (tok : Token) (message : String) : s.Adds p (s.report tok message) :=
  .nothing (congrArg _ (functions_report ..))

/-- Loading a value adds no other constant. -/
theorem adds_load (v : Value) : s.Adds (· = v) (s.load v) := by
  rw [load]
  split
  · exact adds_report ..
  · exact .constant rfl (congrArg (fun c => (_, c) :: _) (Chunk.constants_writeLoad ..))

/-- Adding a value as a constant adds no other one. -/
theorem adds_addConstant {v : Value} {index : UInt8} (h : s.addConstant v = .ok (index, t)) :
    s.Adds (· = v) t := by
  rcases addConstant_eq_ok h with ⟨-, -, rfl⟩ | ⟨-, rfl⟩
  · exact .constant rfl rfl
  · exact .constant rfl (congrArg FunctionStack.cores (functions_report ..))

end Session

/-! ### Actions -/

namespace Action

/-- Whether the action gives a function its name. -/
def names {β : Type} : Action β → Bool
  | .nameFunction => true
  | _ => false

variable {s t : Session}

/-- An action that makes no objects leaves the functions what they hold, or adds a constant that
is no object. -/
theorem adds {β : Type} {a : Action β} (ha : ¬ a.Allocates) {b : β}
    (h : a.apply s = .ok (b, t)) : s.Adds (fun v => v.isObject = false) t := by
  by_cases hmakes : a.Makes
  · cases a with
    | loadNumber =>
        cases h
        rw [Session.loadNumber]
        split
        · exact (Session.adds_load _).mono fun v hv => hv ▸ rfl
        · exact Session.adds_report ..
    | loadString | nameConstant | beginFunction | nameFunction | endFunction =>
        exact absurd trivial ha
    | _ => exact hmakes.elim
  · exact .nothing (cores_of_not_makes hmakes h)

/-- No action makes garbage, if those that give names give them to functions without one. -/
theorem tight {β : Type} (a : Action β) {b : β} (hs : s.Clean) (ht : s.Tight [])
    (hname : a.names = true →
      s.heap.functions.get? s.functions.current.function.index = some .empty)
    (h : a.apply s = .ok (b, t)) (hclean : t.Clean) : t.Tight [] := by
  have hsound := hs.orderly.sound
  by_cases ha : a.Allocates
  · cases a with
    | loadString =>
        obtain ⟨u, hu, h⟩ := bind_eq_ok.mp h
        cases h
        obtain ⟨text, htext, hload⟩ := bind_eq_ok.mp hu
        cases hload
        exact (ht.intern hsound text).load hs.alert hclean
    | nameConstant => exact (ht.intern hsound s.previous.lexeme).addConstant hs.alert h hclean
    | beginFunction =>
        cases h
        exact ht.beginFunction hsound
    | nameFunction =>
        obtain ⟨u, hu, h⟩ := bind_eq_ok.mp h
        cases h
        exact ht.nameFunction hsound (hname rfl) hu
    | endFunction => exact ht.endFunction hs h hclean
    | _ => exact ha.elim
  · have hadds := adds ha h
    exact ht.of_pool (heap_of_not_allocates ha h) hadds.handles hadds.pool

end Action

namespace CompileM

/-! ### Names are given once -/

/-- Whether the compilation is the beginning of a function and nothing else. -/
def begins {α : Type} : CompileM α → Bool
  | .act .beginFunction => true
  | _ => false

/-- Functions are named only right after they were begun, where `fresh` says whether one was
begun right before. -/
def NamesOnce {α : Type} (fresh : Bool) : CompileM α → Prop
  | .done _ | .ask _ => True
  | .act a => a.names = true → fresh = true
  | .chain first next => first.NamesOnce fresh ∧ ∀ b, (next b).NamesOnce first.begins
  | .part _ body => body.NamesOnce fresh

/-- No run without diagnostics makes garbage on its way. -/
theorem tight {α : Type} {m : CompileM α} {fresh : Bool} (hm : m.NamesOnce fresh)
    {s t : Session} {a : α} (hs : s.Clean) (ht : s.Tight [])
    (hfresh : fresh = true →
      s.heap.functions.get? s.functions.current.function.index = some .empty)
    (h : m.run s = .ok (a, t)) (hclean : t.Clean) :
    t.Tight [] ∧ ∀ u, m.Visits s u → u.Tight [] := by
  induction m generalizing fresh s t with
  | done result =>
      cases result with
      | error fault => cases h
      | ok b =>
          cases h
          exact ⟨ht, fun u hu => hu ▸ ht⟩
  | ask q =>
      cases h
      exact ⟨ht, fun u hu => hu ▸ ht⟩
  | act action =>
      have htight := action.tight hs ht (fun hname => hfresh (hm hname)) h hclean
      refine ⟨htight, fun u hu => ?_⟩
      rcases hu with rfl | ⟨b, hb⟩
      · exact ht
      · rw [show action.apply s = .ok (a, t) from h] at hb
        cases hb
        exact htight
  | chain first next ihFirst ihNext =>
      rw [run] at h
      split at h
      next b u hfirst =>
        have hu : u.Clean := clean_of_run hs hfirst ((next b).heard h) hclean
        obtain ⟨hut, hvisited⟩ := ihFirst hm.1 hs ht hfresh hfirst hu
        -- a function that was just begun is empty
        have hbegun : first.begins = true →
            u.heap.functions.get? u.functions.current.function.index = some .empty := by
          intro hbegins
          cases first with
          | act action =>
              cases action with
              | beginFunction =>
                  cases hfirst
                  exact get?_allocFunction hs.orderly.sound.wf _
              | _ => cases hbegins
          | _ => cases hbegins
        obtain ⟨htt, hvisited'⟩ := ihNext b (hm.2 b) hu hut hbegun h hclean
        refine ⟨htt, fun v hv => ?_⟩
        rcases hv with hv | ⟨b', u', hfirst', hv⟩
        · exact hvisited v hv
        · rw [hfirst] at hfirst'
          cases hfirst'
          exact hvisited' v hv
      next => cases h
  | part phrase body ih => exact ih hm hs ht hfresh h hclean

/-- That functions are named once only depends on how compilations are put together. -/
theorem compositional_namesOnce :
    Compositional Action.OfDeclaration fun m => ∀ fresh, m.NamesOnce fresh where
  done _ _ := trivial
  ask _ _ := trivial
  act {α a} ha _ := by
    cases a with
    | nameFunction => exact ha.elim
    | _ => rintro ⟨⟩
  chain hfirst hnext fresh := ⟨hfirst fresh, fun b => hnext b _⟩
  part hbody := hbody

/-- The one place where a name is given: the function was begun right before. -/
theorem namesOnce_function {declaration : CompileM Unit} (budget : Nat)
    (hdeclaration : ∀ fresh, declaration.NamesOnce fresh) (fresh : Bool) :
    (function declaration budget).NamesOnce fresh :=
  have hend (fresh : Bool) : (act .endFunction).NamesOnce fresh := by rintro ⟨⟩
  ⟨by rintro ⟨⟩, fun _ => ⟨fun _ => rfl, fun _ =>
    compositional_namesOnce.behindName hdeclaration hend budget _⟩⟩

/-- The compilation of the declarations of a script names each function once. -/
theorem namesOnce_declarations (budget : Nat) (fresh : Bool) :
    (declarations budget).NamesOnce fresh :=
  compositional_namesOnce.declarations (by rintro _ ⟨⟩) namesOnce_function budget fresh

end CompileM

end LoxBytecode
