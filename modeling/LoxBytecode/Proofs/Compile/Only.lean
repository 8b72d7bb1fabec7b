import LoxBytecode.Compile
import LoxBytecode.Proofs.Session.Fields

/-!
# What a Compilation Carries Out

`m.Only faults acts` says of a compilation that all actions in it are among `acts`, whatever the
answers on the way to them, and that what it ends with by itself, and not in an action, is no
fault but one of `faults`.

Many compilations leave something alone: the tokens, the scopes, the jumps that are open, or the
diagnostics. What they are made of is shown here once. To use it for a property, one says which
actions have it and derives from it, by induction on the compilation, what a run does.

The compilations that all others are made of have a simp lemma each, which asks for the actions in
it and for nothing else. Only `resolve`, `emitLoop` and `skipToStatement` have faults of their own.
-/

namespace LoxBytecode

namespace CompileM

/-- All actions in the compilation and all faults that it ends with by itself are of a kind. -/
def Only (faults : Fault → Prop) (acts : ∀ {β : Type}, Action β → Prop) {α : Type} :
    CompileM α → Prop
  | .done (.ok _) => True
  | .done (.error fault) => faults fault
  | .ask _ => True
  | .act a => acts a
  | .chain first next => first.Only faults acts ∧ ∀ b, (next b).Only faults acts
  | .part _ body => body.Only faults acts

variable {α β : Type} {faults : Fault → Prop} {acts : ∀ {β : Type}, Action β → Prop}

/-- What the actions of a kind do to a session, a run does that has no others. -/
theorem Only.relates {R : Session → Session → Prop} (refl : ∀ s, R s s)
    (trans : ∀ {s t u}, R s t → R t u → R s u)
    (hacts : ∀ {β : Type} {a : Action β} {s t : Session} {b : β}, acts a →
      a.apply s = .ok (b, t) → R s t)
    {m : CompileM α} (hm : m.Only faults acts) {s t : Session} {a : α}
    (h : m.run s = .ok (a, t)) : R s t := by
  induction m generalizing s t with
  | done result =>
      cases result with
      | ok =>
          cases h
          exact refl s
      | error => cases h
  | ask =>
      cases h
      exact refl s
  | act action => exact hacts hm h
  | chain first next ihFirst ihNext =>
      obtain ⟨⟨b, u⟩, hfirst, hnext⟩ := bind_eq_ok.mp ((run_bind s first next).symm.trans h)
      exact trans (ihFirst hm.1 hfirst) (ihNext b (hm.2 b) hnext)
  | part _ body ih => exact ih hm h

/-! ### How compilations are put together -/

/-- A result that is there already only goes wrong as the result does. -/
theorem only_done {result : Checked α} :
    (done result).Only faults acts ↔ ∀ fault, result = .error fault → faults fault := by
  cases result with
  | ok a => exact iff_of_true trivial (by rintro _ ⟨⟩)
  | error fault => exact ⟨by rintro h _ ⟨⟩; exact h, fun h => h fault rfl⟩

@[simp] theorem only_pure (a : α) : (Pure.pure a : CompileM α).Only faults acts := trivial

@[simp] theorem only_fault (f : Fault) :
    (fault f : CompileM α).Only faults acts ↔ faults f := Iff.rfl

@[simp] theorem only_ask (q : Query α) : (ask q).Only faults acts := trivial

@[simp] theorem only_act (a : Action α) : (act a).Only faults acts ↔ acts a := Iff.rfl

@[simp] theorem only_bind (first : CompileM β) (next : β → CompileM α) :
    (first >>= next).Only faults acts ↔
      first.Only faults acts ∧ ∀ b, (next b).Only faults acts := Iff.rfl

@[simp] theorem only_ite (c : Prop) [Decidable c] (yes no : CompileM α) :
    (if c then yes else no).Only faults acts ↔
      (c → yes.Only faults acts) ∧ (¬ c → no.Only faults acts) := by
  split <;> simp [*]

/-- Captures are only refused for an index that is too wide. -/
theorem eq_wideOperand_of_captureBytes {cs : List Capture} {fault : Fault}
    (h : captureBytes cs = .error fault) : fault = .wideOperand := by
  induction cs with
  | nil => cases h
  | cons c cs ih =>
      rcases bind_eq_error.mp h with hnarrow | ⟨_, _, h⟩
      · exact eq_wideOperand_of_narrow hnarrow
      · rcases bind_eq_error.mp h with h | ⟨_, _, h⟩
        · exact ih h
        · cases h

@[simp] theorem only_narrow (hfault : faults .wideOperand) (n : Nat) :
    (liftM (LoxBytecode.narrow n) : CompileM UInt8).Only faults acts :=
  only_done.mpr fun _ h => eq_wideOperand_of_narrow h ▸ hfault

@[simp] theorem only_captureBytes (hfault : faults .wideOperand) (cs : List Capture) :
    (liftM (captureBytes cs) : CompileM (List UInt8)).Only faults acts :=
  only_done.mpr fun _ h => eq_wideOperand_of_captureBytes h ▸ hfault

/-! ### Queries and tokens -/

@[simp] theorem only_currentKind : currentKind.Only faults acts := trivial

@[simp] theorem only_previousKind : previousKind.Only faults acts := trivial

@[simp] theorem only_isRecovering : isRecovering.Only faults acts := trivial

@[simp] theorem only_codeSize : codeSize.Only faults acts := trivial

@[simp] theorem only_atTopScope : atTopScope.Only faults acts := trivial

@[simp] theorem only_nextIs (kind : TokenKind) : (nextIs kind).Only faults acts :=
  ⟨trivial, fun _ => trivial⟩

@[simp] theorem only_fail (problem : Problem) :
    (fail problem).Only faults acts ↔ acts (.fail problem) := Iff.rfl

@[simp] theorem only_failHere (problem : Problem) :
    (failHere problem).Only faults acts ↔ acts (.failHere problem) := Iff.rfl

@[simp] theorem only_advance : CompileM.advance.Only faults acts ↔ acts .advance := Iff.rfl

@[simp] theorem only_accept (kind : TokenKind) :
    (accept kind).Only faults acts ↔ acts .advance := by
  simp only [accept, only_bind, only_ite, only_nextIs, only_advance, only_pure]
  exact ⟨fun h => (h.2 true).1 rfl |>.1, fun h => ⟨trivial, fun _ => by simp [h]⟩⟩

@[simp] theorem only_acceptIf (allowed : Bool) (kind : TokenKind) :
    (acceptIf allowed kind).Only faults acts ↔ (allowed = true → acts .advance) := by
  cases allowed <;> simp [acceptIf]

@[simp] theorem only_expect (kind : TokenKind) (what : String) :
    (expect kind what).Only faults acts ↔
      acts .advance ∧ acts (.failHere (.expected what)) := by
  simp [expect, and_comm]

@[simp] theorem only_skipToStatement (hfault : faults .outOfBudget) (budget : Nat) :
    (skipToStatement budget).Only faults acts ↔ (budget ≠ 0 → acts .advance) := by
  induction budget with
  | zero => exact iff_of_true hfault (absurd rfl)
  | succ budget ih =>
      constructor
      · rintro ⟨-, hcurrent⟩ -
        exact (((only_ite ..).mp ((hcurrent .identifier).2 .identifier)).2 (by decide)).1
      · intro hadvance
        have hskip := ih.mpr fun _ => hadvance (Nat.succ_ne_zero budget)
        simp [skipToStatement, hadvance, hskip]

/-! ### Code -/

@[simp] theorem only_emit (op : Opcode) (operands : List UInt8) :
    (emit op operands).Only faults acts ↔ acts (.emit op operands) := Iff.rfl

@[simp] theorem only_nameConstant :
    nameConstant.Only faults acts ↔ acts .nameConstant := Iff.rfl

@[simp] theorem only_patchJump (offset : Nat) :
    (patchJump offset).Only faults acts ↔ acts (.patchJump offset) := Iff.rfl

@[simp] theorem only_emitAll (ops : List Opcode) :
    (emitAll ops).Only faults acts ↔ ∀ op ∈ ops, acts (.emit op []) := by
  induction ops with
  | nil => simp [emitAll]
  | cons op ops ih =>
      rw [List.forall_mem_cons, ← ih]
      exact and_congr_right' (forall_const Unit)

@[simp] theorem only_emitReturn :
    CompileM.emitReturn.Only faults acts ↔ acts (.emit .nil []) ∧ acts (.emit .ret []) := by
  simp [CompileM.emitReturn]

@[simp] theorem only_emitJump (op : Opcode) :
    (emitJump op).Only faults acts ↔ acts (.emit op (Chunk.bytesOf16 Session.maxJump)) := by
  simp [emitJump]

@[simp] theorem only_emitLoop (hfault : faults .misplacedJump) (target : Nat) :
    (emitLoop target).Only faults acts ↔ acts (.fail .loopTooLong) ∧
      ∀ distance, 3 ≤ distance → distance ≤ Session.maxJump →
        acts (.emit .loop (Chunk.bytesOf16 distance)) := by
  constructor
  · rintro ⟨-, hsize⟩
    refine ⟨?_, fun distance hlower hupper => ?_⟩
    · have hfar := ((only_ite ..).mp (hsize (target + Session.maxJump))).2 (by omega)
      exact (((only_ite ..).mp hfar).2 (by omega)).1
    · have hnear := ((only_ite ..).mp (hsize (target + distance - 3))).2 (by omega)
      have hsame : target + distance - 3 + 3 - target = distance := by omega
      simpa [hsame, hupper] using hnear
  · rintro ⟨hfail, hemit⟩
    refine ⟨trivial, fun size => (only_ite ..).mpr ⟨fun _ => hfault, fun hsize => ?_⟩⟩
    refine (only_ite ..).mpr ⟨fun hdistance => hemit _ (by omega) hdistance, fun _ => ?_⟩
    exact ⟨hfail, fun _ => hemit _ (by decide) (Nat.le_refl _)⟩

/-! ### Variables -/

@[simp] theorem only_beginScope : beginScope.Only faults acts ↔ acts .beginScope := Iff.rfl

@[simp] theorem only_endScope : CompileM.endScope.Only faults acts ↔
    acts .endScope ∧ acts (.emit .closeUpvalue []) ∧ acts (.emit .pop []) := by
  constructor
  · rintro ⟨hend, hflags⟩
    have hall := (only_emitAll _).mp (hflags [true, false])
    exact ⟨hend, hall _ (by simp), hall _ (by simp)⟩
  · rintro ⟨hend, hclose, hpop⟩
    refine ⟨hend, fun flags => (only_emitAll _).mpr fun op hop => ?_⟩
    obtain ⟨captured, -, rfl⟩ := List.mem_map.mp hop
    cases captured
    · exact hpop
    · exact hclose

@[simp] theorem only_declareVariable :
    declareVariable.Only faults acts ↔ acts .declare := by
  simp [declareVariable]

@[simp] theorem only_markInitialized :
    CompileM.markInitialized.Only faults acts ↔ acts .markInitialized := Iff.rfl

@[simp] theorem only_parseVariable (what : String) :
    (parseVariable what).Only faults acts ↔
      (acts .advance ∧ acts (.failHere (.expected what))) ∧ acts .declare ∧
        acts .nameConstant := by
  simp [parseVariable]

@[simp] theorem only_defineVariable (global : UInt8) :
    (defineVariable global).Only faults acts ↔
      acts (.emit .defineGlobal [global]) ∧ acts .markInitialized := by
  simp [defineVariable, and_comm]

@[simp] theorem only_resolve (hfault : faults .wideOperand) :
    resolve.Only faults acts ↔
      (∀ e, acts (.fail (.scope e))) ∧ acts .findUpvalue ∧ acts .nameConstant := by
  constructor
  · rintro ⟨-, hlocal⟩
    obtain ⟨hfind, hcapture⟩ := hlocal (.ok none)
    exact ⟨fun e => (hlocal (.error e)).1, hfind, (hcapture (.ok none)).1⟩
  · rintro ⟨hfail, hfind, hname⟩
    refine ⟨trivial, fun found => ?_⟩
    rcases found with e | (- | slot)
    · exact ⟨hfail e, fun _ => trivial⟩
    · refine ⟨hfind, fun captured => ?_⟩
      rcases captured with e | (- | index)
      · exact ⟨hfail e, fun _ => trivial⟩
      · exact ⟨hname, fun _ => trivial⟩
      · exact ⟨only_narrow hfault index, fun _ => trivial⟩
    · exact ⟨only_narrow hfault slot, fun _ => trivial⟩

end CompileM

end LoxBytecode
