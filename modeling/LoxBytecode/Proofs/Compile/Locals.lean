import LoxBytecode.Proofs.Compile.Careful
import LoxBytecode.Proofs.Compile.Forms
import LoxBytecode.Proofs.Compile.Independence
import LoxBytecode.Proofs.Session.Locals

/-!
# Locals While Compiling

In every session on the way of a compilation, on error paths too, the locals of every function
lie in layers, and none waits for its initialization but one that the declaration under way has
declared (`compile_locals`). Between the two stands what leaves all scopes alone: the
initializer of a variable, or one instruction. A function body is compiled after its name is
initialized, so that the functions around have no local that waits.
-/

namespace LoxBytecode

open FunctionState

namespace CompileM

variable {α β γ : Type} {s t u : Session}

/-! ### Compilations that leave all scopes alone -/

/-- No scope and no function begins or ends, and no local is declared, on whatever way. -/
abbrev Flat (m : CompileM α) : Prop :=
  m.Only (fun _ => True) Action.Tame

/-- A compilation that leaves all scopes alone ends with the scopes that it began with. -/
theorem Flat.lexicals_run {m : CompileM α} (hm : m.Flat) {a : α} (h : m.run s = .ok (a, t)) :
    t.lexicals = s.lexicals :=
  Only.relates (R := fun s t => t.lexicals = s.lexicals) (fun _ => rfl)
    (fun hst htu => htu.trans hst) (fun ha h => Action.lexicals_of_tame h ha) hm h

/-- On its way the scopes are the same as well. -/
theorem Flat.lexicals_visits {m : CompileM α} (hm : m.Flat) (h : m.Visits s u) :
    u.lexicals = s.lexicals := by
  induction m generalizing s with
  | done | ask => exact congrArg Session.lexicals h
  | act action =>
      rcases h with rfl | ⟨b, hb⟩
      · rfl
      · exact Action.lexicals_of_tame hb hm
  | chain first next ihFirst ihNext =>
      rcases h with h | ⟨b, t, hfirst, h⟩
      · exact ihFirst hm.1 h
      · exact (ihNext b (hm.2 b) h).trans (Flat.lexicals_run hm.1 hfirst)
  | part phrase body ih => exact ih hm h

/-- Whatever it performs leaves all scopes alone. -/
theorem Performs.tame {a : Action β} {m : CompileM α} (h : Performs a u m s) (hm : m.Flat) :
    a.Tame := by
  induction h with
  | act => exact hm
  | first _ ih => exact ih hm.1
  | next _ _ ih => exact ih (hm.2 _)
  | part _ ih => exact ih hm

/-- An action in a chain is performed by one of its parts. -/
theorem Performs.of_chain {a : Action γ} {first : CompileM β} {next : β → CompileM α}
    (h : Performs a u (.chain first next) s) :
    Performs a u first s ∨ ∃ b t, first.run s = .ok (b, t) ∧ Performs a u (next b) t := by
  cases h with
  | first h => exact Or.inl h
  | next hrun h => exact Or.inr ⟨_, _, hrun, h⟩

/-- Leaving all scopes alone carries over to all forms of expressions. -/
theorem compositional_flat : Compositional Action.OfExpression Flat :=
  compositional_only (fun _ _ => trivial) fun {_ a} ha => by cases a <;> trivial

@[simp] theorem flat_expression (budget : Nat) : (expression budget).Flat :=
  compositional_flat.expression budget

attribute [local simp] Action.Tame

/-! ### Declarations under way -/

/-- The compilations that declare a variable in the current scope. -/
inductive Declares : CompileM Unit → Prop
  | var (budget : Nat) : Declares (varDeclaration budget)
  | class : Declares classDeclaration
  | fun (declaration : CompileM Unit) (budget : Nat) : Declares (funDeclaration declaration budget)
  | parameter : Declares parameter

/-- The one compilation is carried out from this session on the way of the other. -/
inductive CarriesOut {γ : Type} (d : CompileM γ) (t : Session) :
    {α : Type} → CompileM α → Session → Prop
  | self : CarriesOut d t d t
  | first {α β : Type} {first : CompileM β} {next : β → CompileM α} {s : Session} :
      CarriesOut d t first s → CarriesOut d t (.chain first next) s
  | next {α β : Type} {first : CompileM β} {next : β → CompileM α} {s u : Session} {b : β} :
      first.run s = .ok (b, u) → CarriesOut d t (next b) u → CarriesOut d t (.chain first next) s
  | part {α : Type} {phrase : Phrase} {body : CompileM α} {s : Session} :
      CarriesOut d t body s → CarriesOut d t (.part phrase body) s

/-- A declaration is under way on the way of the compilation: no local waited when it began, and
now one more than then is there, the last, and waits. -/
def Declaring {α : Type} (m : CompileM α) (s u : Session) : Prop :=
  ∃ d t, Declares d ∧ CarriesOut d t m s ∧ d.Visits t u ∧ t.Settled ∧ t.Awaits u

/-! ### Locals that do not wait longer -/

/-- Whether the last local waits since a session, if there is one to count from. -/
def Waits : Option Session → Session → Prop
  | none, _ => False
  | some r, u => r.Settled ∧ r.Awaits u

/-- From a session no local waits but while its declaration is under way, or since the given
session; none does in the end; and none is declared while another waits. -/
structure SettlesFrom (since : Option Session) (m : CompileM α) (s : Session) : Prop where
  timely : ∀ {β : Type} (a : Action β) (u : Session), Performs a u m s → a.Timely u
  visits : ∀ u, m.Visits s u → u.Settled ∨ Declaring m s u ∨ Waits since u
  ends : ∀ a t, m.run s = .ok (a, t) → t.Settled

/-- The compilation settles from every session where no local waits, or one does since the given
session. -/
def Settles (since : Option Session) (m : CompileM α) : Prop :=
  ∀ s : Session, s.Settled ∨ Waits since s → m.SettlesFrom since s

section

variable {since : Option Session} {m : CompileM α} {first : CompileM β} {next : β → CompileM α}

/-- Where no local ever waits, none waits since any session. -/
theorem SettlesFrom.of_none (h : m.SettlesFrom none s) : m.SettlesFrom since s where
  timely := h.timely
  visits u hu := (h.visits u hu).imp_right (·.imp_right False.elim)
  ends := h.ends

/-- A chain settles if its first part leaves locals waiting as allowed and the second settles from
there. -/
theorem SettlesFrom.chain
    (timely : ∀ {δ : Type} (a : Action δ) (u : Session), Performs a u first s → a.Timely u)
    (visits : ∀ u, first.Visits s u → u.Settled ∨ Declaring first s u ∨ Waits since u)
    (hnext : ∀ b t, first.run s = .ok (b, t) → (next b).SettlesFrom since t) :
    (first >>= next).SettlesFrom since s where
  timely a u h := by
    rcases h.of_chain with h | ⟨b, t, hrun, h⟩
    · exact timely a u h
    · exact (hnext b t hrun).timely a u h
  visits u h := by
    rcases h with h | ⟨b, t, hrun, h⟩
    · refine (visits u h).imp_right (·.imp_left ?_)
      rintro ⟨d, r, hd, hcarries, hu⟩
      exact ⟨d, r, hd, hcarries.first, hu⟩
    · refine ((hnext b t hrun).visits u h).imp_right (·.imp_left ?_)
      rintro ⟨d, r, hd, hcarries, hu⟩
      exact ⟨d, r, hd, .next hrun hcarries, hu⟩
  ends a t h := by
    rw [run_bind] at h
    obtain ⟨⟨b, u⟩, hb, ha⟩ := bind_eq_ok.mp h
    exact (hnext b u hb).ends a t ha

/-- What comes after starts where no local waits. -/
theorem Settles.bind (hfirst : first.Settles since) (hnext : ∀ b, (next b).Settles none) :
    (first >>= next).Settles since := by
  intro s hs
  have h := hfirst s hs
  exact .chain h.timely h.visits fun b t hrun => (hnext b t (Or.inl (h.ends b t hrun))).of_none

/-- Whether a local waits depends on nothing but the scopes. -/
theorem Waits.of_lexicals (h : Waits since s) (hsame : t.lexicals = s.lexicals) :
    Waits since t := by
  cases since with
  | none => exact h
  | some r => exact ⟨h.1, h.2.of_lexicals hsame⟩

/-- What comes before leaves all scopes alone. -/
theorem Settles.skip (hfirst : first.Flat) (hnext : ∀ b, (next b).Settles since) :
    (first >>= next).Settles since := by
  intro s hs
  have hafter {t : Session} (h : t.lexicals = s.lexicals) : t.Settled ∨ Waits since t :=
    hs.imp (·.of_lexicals h) (·.of_lexicals h)
  exact .chain (fun a u h => (h.tame hfirst).timely)
    (fun u hu => (hafter (hfirst.lexicals_visits hu)).imp_right Or.inr)
    fun b t hrun => hnext b t (hafter (hfirst.lexicals_run hrun))

/-- What comes before leaves all scopes alone from a session where no local waits. -/
theorem SettlesFrom.skip (hfirst : first.Flat) (hs : s.Settled)
    (hnext : ∀ b t, t.lexicals = s.lexicals → (next b).SettlesFrom since t) :
    (first >>= next).SettlesFrom since s :=
  .chain (fun _ _ h => (h.tame hfirst).timely)
    (fun _ hu => Or.inl (hs.of_lexicals (hfirst.lexicals_visits hu)))
    fun b t hrun => hnext b t (hfirst.lexicals_run hrun)

/-- Leaving all scopes alone lets no local wait. -/
theorem Flat.settles (hm : m.Flat) : m.Settles none := by
  intro s hs
  have hsettled := hs.resolve_right id
  exact ⟨fun a u h => (h.tame hm).timely,
    fun u hu => Or.inl (hsettled.of_lexicals (hm.lexicals_visits hu)),
    fun a t hrun => hsettled.of_lexicals (hm.lexicals_run hrun)⟩

/-- A branch settles if both sides do. -/
theorem Settles.ite {p : Prop} [Decidable p] {yes no : CompileM α} (hyes : yes.Settles since)
    (hno : no.Settles since) : (if p then yes else no).Settles since := by
  split
  · exact hyes
  · exact hno

/-- Marking a phrase changes nothing. -/
theorem Settles.part {phrase : Phrase} (hm : m.Settles since) :
    (CompileM.part phrase m).Settles since := by
  intro s hs
  have h := hm s hs
  refine ⟨fun a u hperforms => ?_, fun u hu => (h.visits u hu).imp_right (·.imp_left ?_), h.ends⟩
  · cases hperforms with
    | part hbody => exact h.timely a u hbody
  · rintro ⟨d, r, hd, hcarries, hu⟩
    exact ⟨d, r, hd, hcarries.part, hu⟩

/-- A compilation that goes wrong leaves no local waiting. -/
theorem settles_fault {f : Fault} : (fault f : CompileM α).Settles none :=
  Flat.settles trivial

/-- An action settles where it is timely and leaves no local waiting. -/
theorem settlesFrom_act {a : Action α} (htimely : a.Timely s) (hs : s.Settled ∨ Waits since s)
    (hends : ∀ b t, a.apply s = .ok (b, t) → t.Settled) : (act a).SettlesFrom since s := by
  refine ⟨fun a' u h => ?_, fun u hu => ?_, hends⟩
  · cases h
    exact htimely
  · rcases hu with rfl | ⟨b, hb⟩
    · exact hs.imp_right Or.inr
    · exact Or.inl (hends b u hb)

/-- A single action that declares no local lets none wait. -/
theorem settles_act {a : Action α} (ha : a.Undeclaring) (htimely : ∀ s, s.Settled → a.Timely s) :
    (act a).Settles none := by
  intro s hs
  have hsettled := hs.resolve_right id
  exact settlesFrom_act (htimely s hsettled) hs fun b t hrun => ha.settled hsettled hrun

/-! ### Scopes and declarations -/

/-- No local waits when a scope begins. -/
theorem settles_beginScope : beginScope.Settles none :=
  settles_act trivial fun _ hs => hs

/-- No local waits when a scope ends. -/
theorem settles_endScope : CompileM.endScope.Settles none :=
  (settles_act (a := .endScope) trivial fun _ _ => trivial).bind fun _ => Flat.settles (by simp)

/-- A local that becomes usable waits no longer. -/
theorem settles_markInitialized : markInitialized.Settles since := by
  intro s hs
  refine settlesFrom_act trivial hs ?_
  rintro _ _ ⟨⟩
  rcases hs with hs | hs
  · exact Action.Undeclaring.settled (a := .markInitialized) trivial hs rfl
  · cases since with
    | none => exact hs.elim
    | some r => exact hs.2.markInitialized hs.1

/-- A local that waits is one in a scope, and is initialized. -/
theorem settles_defineVariable (global : UInt8) : (defineVariable global).Settles since := by
  intro s hs
  by_cases htop : s.functions.current.scopeDepth = 0
  · have hsettled : s.Settled := by
      refine hs.resolve_right fun hwaits => ?_
      cases since with
      | none => exact hwaits.elim
      | some r =>
          obtain ⟨-, depth, locals, rest, name, -, hafter⟩ := hwaits
          have hdepth : s.functions.current.scopeDepth = depth + 1 :=
            congrArg Prod.fst (List.cons_eq_cons.mp hafter).1
          exact absurd (hdepth.symm.trans htop) (Nat.succ_ne_zero depth)
    refine .chain (fun a u h => by cases h) (fun u hu => Or.inl (hu ▸ hsettled)) ?_
    rintro _ _ ⟨⟩
    rw [Query.answer, htop]
    exact (Flat.settles (m := emit .defineGlobal [global]) trivial s (Or.inl hsettled)).of_none
  · refine .chain (fun a u h => by cases h) ?_ ?_
    · rintro u rfl
      exact hs.imp_right Or.inr
    rintro _ _ ⟨⟩
    have hanswer : Query.answer s .atTopScope = false := by simpa [Query.answer] using htop
    rw [hanswer]
    exact settles_markInitialized s hs

end

/-! ### Declarations -/

/-- From a session a local may be declared that waits in the end, where none did in the given
session. -/
structure Opens (r : Session) (m : CompileM α) (s : Session) : Prop where
  timely : ∀ {β : Type} (a : Action β) (u : Session), Performs a u m s → a.Timely u
  visits : ∀ u, m.Visits s u → u.Settled ∨ Waits (some r) u

/-- A compilation visits the session that it ends with. -/
theorem visits_of_run {m : CompileM α} {a : α} (h : m.run s = .ok (a, t)) : m.Visits s t := by
  induction m generalizing s t with
  | done result =>
      cases result with
      | error fault => cases h
      | ok a =>
          cases h
          rfl
  | ask q =>
      cases h
      rfl
  | act action => exact Or.inr ⟨a, h⟩
  | chain first next ihFirst ihNext =>
      obtain ⟨⟨b, u⟩, hfirst, hnext⟩ := bind_eq_ok.mp ((run_bind s first next).symm.trans h)
      exact Or.inr ⟨b, u, hfirst, ihNext b hnext⟩
  | part phrase body ih => exact ih h

section

variable {r : Session} {first : CompileM β} {next : β → CompileM α}

/-- What comes behind a first part starts from a local that waits, or from none. -/
theorem Opens.bind (hfirst : first.Opens r s)
    (hnext : ∀ b t, first.run s = .ok (b, t) → t.Settled ∨ Waits (some r) t →
      (next b).Opens r t) : (first >>= next).Opens r s := by
  have hafter (b : β) (t : Session) (hrun : first.run s = .ok (b, t)) :=
    hnext b t hrun (hfirst.visits t (visits_of_run hrun))
  refine ⟨fun a u h => ?_, fun u h => ?_⟩
  · rcases h.of_chain with h | ⟨b, t, hrun, h⟩
    · exact hfirst.timely a u h
    · exact (hafter b t hrun).timely a u h
  · rcases h with h | ⟨b, t, hrun, h⟩
    · exact hfirst.visits u h
    · exact (hafter b t hrun).visits u h

/-- Leaving all scopes alone keeps a local waiting that does. -/
theorem Flat.opens {m : CompileM α} (hm : m.Flat) (hs : s.Settled ∨ Waits (some r) s) :
    m.Opens r s :=
  ⟨fun _ _ h => (h.tame hm).timely, fun _ hu =>
    hs.imp (·.of_lexicals (hm.lexicals_visits hu)) (·.of_lexicals (hm.lexicals_visits hu))⟩

/-- Declaring a variable opens a declaration where no local waits. -/
theorem opens_declareVariable (hr : r.Settled) (hsame : s.lexicals = r.lexicals) :
    declareVariable.Opens r s := by
  have hs : s.Settled := hr.of_lexicals hsame
  by_cases htop : s.functions.current.scopeDepth = 0
  · have hanswer : Query.answer s .atTopScope = true := by simpa [Query.answer] using htop
    refine (Flat.opens (m := atTopScope) trivial (Or.inl hs)).bind ?_
    rintro _ _ ⟨⟩ hs
    rw [hanswer]
    exact Flat.opens trivial hs
  · have hanswer : Query.answer s .atTopScope = false := by simpa [Query.answer] using htop
    refine (Flat.opens (m := atTopScope) trivial (Or.inl hs)).bind ?_
    rintro _ _ ⟨⟩ -
    rw [hanswer]
    refine ⟨fun a u h => ?_, fun u hu => ?_⟩
    · cases h
      exact hs.timely
    · rcases hu with rfl | ⟨b, hb⟩
      · exact Or.inl hs
      · cases hb
        rcases Session.awaits_declare htop with h | h
        · exact Or.inl (hs.of_lexicals h)
        · exact Or.inr ⟨hr, h.from_lexicals hsame.symm⟩

/-- A declaration that is opened and then settled lets no local wait longer. -/
theorem Opens.settles {since : Session} (hfirst : first.Opens since s)
    (hnext : ∀ b, (next b).Settles (some since)) : (first >>= next).SettlesFrom (some since) s :=
  .chain hfirst.timely (fun u hu => (hfirst.visits u hu).imp_right Or.inr)
    fun b t hrun => hnext b t (hfirst.visits t (visits_of_run hrun))

end

/-- What waits since a declaration began waits while it is under way. -/
theorem Declares.settles {d : CompileM Unit} (hd : Declares d)
    (h : ∀ s : Session, s.Settled → d.SettlesFrom (some s) s) : d.Settles none := by
  intro s hs
  have hsettled := hs.resolve_right id
  have hfrom := h s hsettled
  refine ⟨hfrom.timely, fun u hu => ?_, hfrom.ends⟩
  rcases hfrom.visits u hu with h | h | h
  · exact Or.inl h
  · exact Or.inr (Or.inl h)
  · exact Or.inr (Or.inl ⟨d, s, hd, .self, hu, hsettled, h.2⟩)

/-- A name to declare opens a declaration where no local waits. -/
theorem opens_parseVariable {r : Session} (hr : r.Settled) (hsame : s.lexicals = r.lexicals)
    (what : String) : (parseVariable what).Opens r s := by
  have hexpect : (expect .identifier what).Flat := by simp
  refine (hexpect.opens (Or.inl (hr.of_lexicals hsame))).bind fun _ t ht _ => ?_
  refine (opens_declareVariable hr ((hexpect.lexicals_run ht).trans hsame)).bind fun _ u _ hu => ?_
  exact Flat.opens (by simp) hu

/-- Between the declaration of a variable and its initialization stands an expression. -/
theorem settles_varDeclaration (budget : Nat) : (varDeclaration budget).Settles none := by
  refine (Declares.var budget).settles fun s hs => (opens_parseVariable hs rfl _).settles ?_
  refine fun global => .skip (by simp) fun _ => .ite ?_ ?_
  · exact .skip (by simp) fun _ => .skip (by simp) fun _ => settles_defineVariable global
  · exact .skip (by simp) fun _ => .skip (by simp) fun _ => settles_defineVariable global

/-- A class lets no local wait. -/
theorem settles_classDeclaration : classDeclaration.Settles none := by
  refine Declares.class.settles fun s hs => .skip (by simp) hs fun _ t ht =>
    .skip (by simp) (hs.of_lexicals ht) fun name u hu => ?_
  refine (opens_declareVariable hs (hu.trans ht)).settles fun _ => .skip (by simp) fun _ => ?_
  exact (settles_defineVariable name).bind fun _ => Flat.settles (by simp)

/-- A parameter waits only while it is declared. -/
theorem settles_parameter : parameter.Settles none := by
  refine Declares.parameter.settles fun s hs => .skip (by simp) hs fun _ t ht =>
    .skip (by simp) (hs.of_lexicals ht) fun arity u hu => ?_
  have hname {u : Session} (hu : u.lexicals = s.lexicals) :
      (parseVariable "parameter name" >>= defineVariable).SettlesFrom (some s) u :=
    (opens_parseVariable hs hu _).settles settles_defineVariable
  have hsame := hu.trans ht
  dsimp only
  split
  · exact .skip (by simp) (hs.of_lexicals hsame) fun _ v hv => hname (hv.trans hsame)
  · exact hname hsame

/-! ### Functions -/

/-- Parameters wait one at a time. -/
theorem settles_parameters (budget : Nat) : (parameters budget).Settles none := by
  induction budget with
  | zero => exact settles_fault
  | succ budget ih =>
      exact settles_parameter.bind fun _ => .skip (by simp) fun _ => .ite ih (Flat.settles (by simp))

section

variable {declaration : CompileM Unit} (hdeclaration : declaration.Settles none)

include hdeclaration

/-- A block lets no local wait if declarations do not. -/
theorem settles_block (budget : Nat) : (block declaration budget).Settles none := by
  induction budget with
  | zero => exact settles_fault
  | succ budget ih =>
      exact .skip (by simp) fun kind => .ite (Flat.settles (by simp)) (hdeclaration.bind fun _ => ih)

/-- The body of a function lets no local wait, and neither does the end of the function. -/
theorem settles_functionBody (budget : Nat) : (functionBody declaration budget).Settles none := by
  have hclose : closeFunction.Settles none :=
    (settles_act (a := .endFunction) trivial fun _ _ => trivial).bind fun ended =>
      Flat.settles (by simp)
  exact .skip (by simp) fun _ => .skip (by simp) fun _ =>
    (settles_block hdeclaration budget).bind fun _ => .skip (by simp) fun _ => hclose

/-- A function lets no local wait if declarations do not. -/
theorem settles_function (budget : Nat) : (function declaration budget).Settles none := by
  have hbody := settles_functionBody hdeclaration budget
  refine (settles_act (a := .beginFunction) trivial fun _ hs => hs).bind fun _ =>
    .skip (by simp) fun _ => settles_beginScope.bind fun _ =>
      .skip (by simp) fun _ => .skip (by simp) fun empty => .ite hbody ?_
  exact (settles_parameters budget).bind fun _ => hbody

/-- The name of a function is initialized before its body. -/
theorem settles_funDeclaration (budget : Nat) :
    (funDeclaration declaration budget).Settles none := by
  refine (Declares.fun declaration budget).settles fun s hs =>
    (opens_parseVariable hs rfl _).settles fun global => settles_markInitialized.bind fun _ => ?_
  exact (settles_function hdeclaration budget).bind fun _ => settles_defineVariable global

end

/-! ### Statements -/

/-- A local that a for loop declares waits for its initial value only. -/
theorem settles_forInitializer (budget : Nat) : (forInitializer budget).Settles none :=
  .skip (by simp) fun _ => .ite (Flat.settles (by simp)) <|
    .skip (by simp) fun _ => .ite (settles_varDeclaration budget) <|
      (compositional_flat.expressionStatement budget).settles

section

variable {statement : CompileM Unit} (hstatement : statement.Settles none)

include hstatement

/-- A branch lets no local wait if statements do not. -/
theorem settles_ifStatement (budget : Nat) : (ifStatement statement budget).Settles none := by
  refine .skip (by simp) fun _ => .skip (by simp) fun _ => .skip (by simp) fun _ =>
    .skip (by simp) fun _ => .skip (by simp) fun _ => hstatement.bind fun _ =>
      .skip (by simp) fun _ => .skip (by simp) fun _ => .skip (by simp) fun _ =>
        .skip (by simp) fun _ => .ite ?_ (Flat.settles (by simp))
  exact hstatement.bind fun _ => Flat.settles (by simp)

/-- A while loop lets no local wait if statements do not. -/
theorem settles_whileStatement (budget : Nat) : (whileStatement statement budget).Settles none := by
  refine .skip (by simp) fun start => .skip (by simp) fun _ => .skip (by simp) fun _ =>
    .skip (by simp) fun _ => .skip (by simp) fun _ => .skip (by simp) fun _ => ?_
  exact hstatement.bind fun _ => Flat.settles (by simp)

/-- A for loop lets no local wait if statements do not. -/
theorem settles_forStatement (budget : Nat) : (forStatement statement budget).Settles none := by
  refine settles_beginScope.bind fun _ => .skip (by simp) fun _ =>
    (settles_forInitializer budget).bind fun _ => .skip (by simp) fun start =>
      .skip (compositional_flat.forCondition budget) fun exitJump =>
        .skip (compositional_flat.forIncrement budget start) fun target =>
          hstatement.bind fun _ => .skip (by simp) fun _ => ?_
  cases exitJump with
  | none => exact settles_endScope
  | some exitJump => exact .skip (by simp) fun _ => .skip (by simp) fun _ => settles_endScope

end

/-- Statements and declarations let no local wait, by induction on the budget. -/
theorem settles_statement_declaration (budget : Nat) :
    (statement budget).Settles none ∧ (declaration budget).Settles none := by
  induction budget with
  | zero => exact ⟨settles_fault, settles_fault⟩
  | succ budget ih =>
      obtain ⟨hstatement, hdeclaration⟩ := ih
      have hkind {kind : TokenKind} {yes no : CompileM Unit} (hyes : yes.Settles none)
          (hno : no.Settles none) :
          (accept kind >>= fun b => if b = true then yes else no).Settles none :=
        .skip (by simp) fun _ => .ite hyes hno
      have hrecovered {body : CompileM Unit} (hbody : body.Settles none) :
          (body >>= fun _ => isRecovering >>= fun b =>
            if b = true then synchronize budget else Pure.pure ()).Settles none :=
        hbody.bind fun _ => .skip (by simp) fun _ =>
          .ite (Flat.settles (by simp [synchronize])) (Flat.settles (by simp))
      rw [statement, declaration]
      refine ⟨.part ?_, .part ?_⟩
      · exact hkind (compositional_flat.printStatement budget).settles <|
          hkind (compositional_flat.delStatement budget).settles <|
          hkind (compositional_flat.returnStatement budget).settles <|
          hkind (settles_ifStatement hstatement budget) <|
          hkind (settles_whileStatement hstatement budget) <|
          hkind (settles_forStatement hstatement budget) <|
          hkind (settles_beginScope.bind fun _ => (settles_block hdeclaration budget).bind
            fun _ => settles_endScope) <|
          (compositional_flat.expressionStatement budget).settles
      · exact hkind (hrecovered settles_classDeclaration) <|
          hkind (hrecovered (settles_funDeclaration hdeclaration budget)) <|
          hkind (hrecovered (settles_varDeclaration budget)) (hrecovered hstatement)

/-- The declarations of a file let no local wait. -/
theorem settles_loop (budget left : Nat) : (declarations.loop budget left).Settles none := by
  induction left with
  | zero => exact settles_fault
  | succ left ih =>
      exact .skip (by simp) fun ended => .ite (Flat.settles (by simp)) <|
        (settles_statement_declaration budget).2.bind fun _ => ih

/-- A file lets no local wait. -/
theorem settles_script (budget : Nat) : (script budget).Settles none :=
  .skip (by simp) fun _ => (settles_loop budget budget).bind fun _ => Flat.settles (by simp)

/-! ### Sessions on the way -/

/-- What every action keeps that is carried out on the way holds in every session on the way. -/
theorem visits_keeps_performed {P : Session → Prop} {m : CompileM α}
    (keeps : ∀ {β : Type} {a : Action β} {u v : Session} {b : β}, Performs a u m s → P u →
      a.apply u = .ok (b, v) → P v) (start : P s) (h : m.Visits s u) : P u := by
  induction m generalizing s u with
  | done | ask => exact h ▸ start
  | act action =>
      rcases h with rfl | ⟨b, hb⟩
      · exact start
      · exact keeps .act start hb
  | chain first next ihFirst ihNext =>
      rcases h with h | ⟨b, t, hfirst, h⟩
      · exact ihFirst (fun ha => keeps (.first ha)) start h
      · have ht := ihFirst (fun ha => keeps (.first ha)) start (visits_of_run hfirst)
        exact ihNext b (fun ha => keeps (.next hfirst ha)) ht h
  | part phrase body ih => exact ih (fun ha => keeps (.part ha)) start h

/-- On the way of a script the locals lie in layers. -/
theorem layered_of_visits {budget : Nat} (hground : s.Grounded) (hs : s.Layered)
    (hsettled : s.Settled) (h : (script budget).Visits s u) : u.Grounded ∧ u.Layered := by
  have hcareful := ((respects_script budget).start hground).1
  have hsettles := settles_script budget s (Or.inl hsettled)
  refine visits_keeps_performed (P := fun u => u.Grounded ∧ u.Layered) ?_ ⟨hground, hs⟩ h
  intro β a u v b hperforms hu happly
  have hcarefulHere := hperforms.careful hcareful
  exact ⟨hcarefulHere.grounded hu.1 happly,
    (hsettles.timely a u hperforms).layered hcarefulHere hu.1 hu.2 happly⟩

end CompileM

/-! ### Every source -/

/-- The locals of a function in the order of their slots. -/
def FunctionState.slots (st : FunctionState) : List Local :=
  st.locals.reverse

/-- The table of locals of a function is in order. -/
structure FunctionState.InOrder (st : FunctionState) : Prop where
  slotZero : ∃ l, st.slots[0]? = some l ∧ l.name = "" ∧ l.depth = some 0
  size : st.slots.length ≤ 256
  initialized : ∀ l ∈ st.slots.dropLast, l.depth ≠ none
  ordered : (st.slots.filterMap Local.depth).Pairwise (· ≤ ·)
  within : ∀ l ∈ st.slots, ∀ d, l.depth = some d → d ≤ st.scopeDepth
  distinct : st.slots.Pairwise fun l l' => l.depth = l'.depth → l.name ≠ l'.name

/-- A function whose scopes lie in layers above its own slot has its table in order. -/
theorem FunctionState.InOrder.of_layered {st : FunctionState} (h : Layered st.lexical)
    (hground : (st.locals.map ident).getLast? = some ("", some 0)) (hfits : st.Fits) :
    st.InOrder where
  slotZero := by
    rw [List.getLast?_map, Option.map_eq_some_iff] at hground
    obtain ⟨l, hl, hident⟩ := hground
    refine ⟨l, ?_, congrArg Prod.fst hident, congrArg Prod.snd hident⟩
    rw [slots, ← List.head?_eq_getElem?, List.head?_reverse, hl]
  size := by
    rw [slots, List.length_reverse]
    exact hfits.locals
  initialized l hl := by
    rw [slots, List.dropLast_reverse, List.mem_reverse] at hl
    refine h.initialized (ident l) ?_
    rw [FunctionState.lexical, ← List.map_tail]
    exact List.mem_map_of_mem hl
  ordered := by
    rw [slots, List.filterMap_reverse, List.pairwise_reverse, List.pairwise_filterMap]
    refine (List.pairwise_map.mp h.ordered).imp fun {l l'} hle d hd d' hd' => ?_
    rwa [layerOf_eq_of_some (l := ident l) hd, layerOf_eq_of_some (l := ident l') hd'] at hle
  within l hl d hd := by
    have hle := h.within (ident l) (List.mem_map_of_mem (List.mem_reverse.mp hl))
    rwa [layerOf_eq_of_some (l := ident l) hd] at hle
  distinct := by
    rw [slots, List.pairwise_reverse]
    refine (List.pairwise_map.mp h.distinct).imp fun {l l'} hne heq => (hne ?_).symm
    exact congrArg (Option.getD · st.scopeDepth) heq.symm

/-- Outside all scopes, when no local waits, slot 0 is the only one. -/
theorem FunctionState.eq_slotZero {st : FunctionState} (h : Layered st.lexical)
    (hground : (st.locals.map ident).getLast? = some ("", some 0)) (hdepth : st.scopeDepth = 0)
    (hinit : Initialized (st.locals.map ident)) :
    ∃ l, st.slots = [l] ∧ l.name = "" ∧ l.depth = some 0 := by
  rw [List.getLast?_map, Option.map_eq_some_iff] at hground
  obtain ⟨l, hl, hident⟩ := hground
  have hlocals := (List.dropLast_append_getLast? l hl).symm
  have hnone : st.locals.dropLast = [] := by
    refine List.eq_nil_iff_forall_not_mem.mpr fun l' hl' => ?_
    have hmem := List.mem_map_of_mem (f := ident) (List.mem_of_mem_dropLast hl')
    obtain ⟨d, hd⟩ := Option.ne_none_iff_exists'.mp (hinit _ hmem)
    have hwithin := h.within _ hmem
    rw [layerOf_eq_of_some hd, FunctionState.lexical, hdepth, Nat.le_zero] at hwithin
    refine h.inScopes (ident l') ?_ (hd.trans (congrArg some hwithin))
    rw [FunctionState.lexical, ← List.map_dropLast]
    exact List.mem_map_of_mem hl'
  refine ⟨l, ?_, congrArg Prod.fst hident, congrArg Prod.snd hident⟩
  rw [hnone] at hlocals
  rw [slots, hlocals]
  rfl

open CompileM in
/-- In every session on the way of a compilation the locals of all functions being compiled are in
order, and none waits for its initialization but one that the declaration under way declared. At
the end there is the script alone, outside all scopes, with slot 0. -/
theorem compile_locals (source : String) {h : Heap} (hw : h.Wf) (host : List Value) :
    (∀ u, (script (Session.budget (TokenStream.ofSource source))).Visits
      (Session.start (TokenStream.ofSource source) h host) u →
        (∀ st ∈ u.functions.states, st.InOrder) ∧
        ((∀ st ∈ u.functions.states, ∀ l ∈ st.slots, l.depth ≠ none) ∨
          Declaring (script (Session.budget (TokenStream.ofSource source)))
            (Session.start (TokenStream.ofSource source) h host) u)) ∧
      ∃ s, (script (Session.budget (TokenStream.ofSource source))).run
          (Session.start (TokenStream.ofSource source) h host) = .ok ((), s) ∧
        compile source h host = s.finish ∧
        s.functions.enclosing = [] ∧ s.functions.current.scopeDepth = 0 ∧
        ∃ l, s.functions.current.slots = [l] ∧ l.name = "" ∧ l.depth = some 0 := by
  have hground : (Session.start (TokenStream.ofSource source) h host).Grounded :=
    List.forall_mem_singleton.mpr rfl
  have hlayered : (Session.start (TokenStream.ofSource source) h host).Layered :=
    List.forall_mem_singleton.mpr layered_reserved
  have hsettled : (Session.start (TokenStream.ofSource source) h host).Settled :=
    List.forall_mem_singleton.mpr (List.forall_mem_singleton.mpr (Option.some_ne_none 0))
  have hsettles := settles_script (Session.budget (TokenStream.ofSource source)) _
    (Or.inl hsettled)
  refine ⟨fun u hu => ⟨fun st hst => ?_, ?_⟩, ?_⟩
  · obtain ⟨hgroundHere, hlayeredHere⟩ := layered_of_visits hground hlayered hsettled hu
    have hfits : ∀ st ∈ u.functions.states, st.Fits := by
      refine visits_keeps (P := fun u => ∀ st ∈ u.functions.states, st.Fits)
        (fun a _ _ _ hs ha => a.fits hs ha) ?_ hu
      exact List.forall_mem_singleton.mpr ⟨Nat.le_of_ble_eq_true rfl, Nat.zero_le _, .nil⟩
    have hlexical := List.mem_map_of_mem (f := FunctionState.lexical) hst
    exact .of_layered (hlayeredHere _ hlexical) (hgroundHere _ hlexical) (hfits st hst)
  · refine (hsettles.visits u hu).imp (fun h st hst l hl => ?_) (Or.resolve_right · id)
    exact h _ (List.mem_map_of_mem hst) (ident l) (List.mem_map_of_mem (List.mem_reverse.mp hl))
  · obtain ⟨s, hrun, -, hadvances⟩ := exists_advances_script
      hw host (Session.budget (TokenStream.ofSource source))
      (TokenStream.kind_of_mem_ofSource source)
      (fun t ht => (TokenStream.legible_of_mem_ofSource source t ht).quoted)
      (by rw [Session.budget]; omega)
    obtain ⟨hcurrent, henclosing⟩ := List.forall₂_cons.mp hadvances
    obtain ⟨hgroundHere, hlayeredHere⟩ :=
      layered_of_visits hground hlayered hsettled (visits_of_run hrun)
    refine ⟨s, hrun, ?_, List.forall₂_nil_left_iff.mp henclosing, hcurrent.scopeDepth, ?_⟩
    · rw [compile, compileTokens, hrun, ok_bind]
    · exact FunctionState.eq_slotZero hlayeredHere.current hgroundHere.current hcurrent.scopeDepth
        (hsettles.ends _ _ hrun).current

open CompileM in
/-- A block that declares a name twice. The source breaks off in the second initializer. -/
theorem compile_locals_unfinished :
    (∀ u, (script (Session.budget (TokenStream.ofSource "\x7b var a; var a = "))).Visits
      (Session.start (TokenStream.ofSource "\x7b var a; var a = ") (Heap.ofConfig ⟨true, 0, 2⟩) []) u →
        (∀ st ∈ u.functions.states, st.InOrder) ∧
        ((∀ st ∈ u.functions.states, ∀ l ∈ st.slots, l.depth ≠ none) ∨
          Declaring (script (Session.budget (TokenStream.ofSource "\x7b var a; var a = ")))
            (Session.start (TokenStream.ofSource "\x7b var a; var a = ")
              (Heap.ofConfig ⟨true, 0, 2⟩) []) u)) ∧
      ∃ s, (script (Session.budget (TokenStream.ofSource "\x7b var a; var a = "))).run
          (Session.start (TokenStream.ofSource "\x7b var a; var a = ")
            (Heap.ofConfig ⟨true, 0, 2⟩) []) = .ok ((), s) ∧
        compile "\x7b var a; var a = " (Heap.ofConfig ⟨true, 0, 2⟩) [] = s.finish ∧
        s.functions.enclosing = [] ∧ s.functions.current.scopeDepth = 0 ∧
        ∃ l, s.functions.current.slots = [l] ∧ l.name = "" ∧ l.depth = some 0 :=
  compile_locals "\x7b var a; var a = " (Heap.Reachable.ofConfig ⟨true, 0, 2⟩).wf []

end LoxBytecode
