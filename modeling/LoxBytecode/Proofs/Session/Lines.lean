import LoxBytecode.Compile
import LoxBytecode.Proofs.Heap.Lines
import LoxBytecode.Proofs.Session.Fields

/-!
# Sessions Without Lines

`Session.oneLine` is the session as it would be if the whole source stood on one line. Every
action commutes with that (`Action.apply_oneLine`), and since no query asks for a line, so does
every run (`CompileM.run_oneLine`). A session therefore decides nothing by a line: what it
writes, finds, reports and collects is that of the source on one line.
-/

namespace LoxBytecode

open Heap

/-! ### The source on one line -/

/-- The token as if it stood on line 1. -/
def Token.oneLine (t : Token) : Token :=
  { t with line := 1 }

/-- The tokens as if they stood on one line. -/
def TokenStream.oneLine (s : TokenStream) : TokenStream :=
  ⟨s.ahead.map Token.oneLine, 1⟩

/-- The diagnostic as if it were about line 1. -/
def Diagnostic.oneLine (d : Diagnostic) : Diagnostic :=
  { d with line := 1 }

/-- The function as if its code came from one line. -/
def FunctionState.oneLine (st : FunctionState) : FunctionState :=
  { st with chunk := st.chunk.oneLine }

/-- The functions as if their code came from one line. -/
def FunctionStack.oneLine (s : FunctionStack) : FunctionStack :=
  ⟨s.current.oneLine, s.enclosing.map FunctionState.oneLine⟩

/-- The session as if the whole source stood on one line. -/
def Session.oneLine (s : Session) : Session where
  host := s.host
  upcoming := s.upcoming.oneLine
  previous := s.previous.oneLine
  current := s.current.oneLine
  recovering := s.recovering
  diagnostics := s.diagnostics.map Diagnostic.oneLine
  functions := s.functions.oneLine
  heap := s.heap.oneLine

@[simp] theorem Location.ofToken_oneLine (t : Token) :
    Location.ofToken t.oneLine = Location.ofToken t := rfl

/-- Functions hold the same objects on whatever lines. -/
theorem FunctionStack.roots_oneLine (s : FunctionStack) : roots s.oneLine = roots s := by
  simp only [roots, oneLine, ← List.map_reverse, ← List.map_singleton (f := FunctionState.oneLine),
    ← List.map_append, List.flatMap_map]
  rfl

/-! ### Functions -/

/-- Locals have no lines. -/
theorem FunctionState.declareLocal_oneLine (st : FunctionState) (name : String) :
    st.oneLine.declareLocal name = (st.declareLocal name).map oneLine := by
  have hadd : st.oneLine.addLocal name = (st.addLocal name).map oneLine := by
    rw [addLocal, addLocal, show st.oneLine.locals = st.locals from rfl]
    split <;> rfl
  rw [declareLocal, declareLocal, hadd, show st.oneLine.locals = st.locals from rfl,
    show st.oneLine.scopeDepth = st.scopeDepth from rfl]
  split <;> rfl

/-- Captures are found and added without a look at the code. -/
theorem resolveCapture_oneLine (name : String) (inner : FunctionState)
    (outers : List FunctionState) :
    resolveCapture name inner.oneLine (outers.map FunctionState.oneLine) =
      ((resolveCapture name inner outers).1, (resolveCapture name inner outers).2.1.oneLine,
        (resolveCapture name inner outers).2.2.map FunctionState.oneLine) := by
  have hadd (st : FunctionState) (c : Capture) :
      st.oneLine.addUpvalue c = ((st.addUpvalue c).1, (st.addUpvalue c).2.oneLine) := by
    have hupvalues : st.oneLine.upvalues = st.upvalues := rfl
    rw [FunctionState.addUpvalue, FunctionState.addUpvalue, hupvalues]
    cases st.upvalues.idxOf? c with
    | some index => rfl
    | none =>
        dsimp only
        split <;> rfl
  induction outers generalizing inner with
  | nil => rfl
  | cons outer rest ih =>
      have hlocal : outer.oneLine.resolveLocal name = outer.resolveLocal name := rfl
      rw [List.map_cons, resolveCapture, resolveCapture, hlocal]
      cases outer.resolveLocal name with
      | error e => rfl
      | ok found =>
          cases found with
          | some slot =>
              have hcapture : outer.oneLine.capture slot = (outer.capture slot).oneLine := by
                rw [FunctionState.capture, FunctionState.capture,
                  show outer.oneLine.locals = outer.locals from rfl]
                split <;> rfl
              simp only [hadd, hcapture, List.map_cons]
          | none =>
              simp only [ih]
              rcases resolveCapture name outer rest with ⟨e | (- | index), outer', rest'⟩
              · rfl
              · rfl
              · simp only [hadd, List.map_cons]

namespace Session

variable (s : Session)

/-! ### Tokens and diagnostics -/

@[simp] theorem oneLine_report (t : Token) (message : String) :
    s.oneLine.report t.oneLine message = (s.report t message).oneLine := by
  cases hr : s.recovering <;> simp [report, oneLine, hr, Diagnostic.oneLine]
  rfl

@[simp] theorem oneLine_fail (problem : Problem) :
    s.oneLine.fail problem = (s.fail problem).oneLine :=
  s.oneLine_report s.previous problem.message

@[simp] theorem oneLine_failHere (problem : Problem) :
    s.oneLine.failHere problem = (s.failHere problem).oneLine :=
  s.oneLine_report s.current problem.message

/-- Tokens are read alike on one line. -/
theorem oneLine_readFrom (ts : List Token) :
    s.oneLine.readFrom (ts.map Token.oneLine) = (s.readFrom ts).oneLine := by
  induction ts generalizing s with
  | nil => rfl
  | cons t ts ih =>
      rw [List.map_cons, readFrom, readFrom]
      split
      next herror =>
        rw [if_pos (show t.kind = .error from herror)]
        exact (congrArg (readFrom · _) (s.oneLine_report t t.lexeme)).trans (ih _)
      next hne =>
        rw [if_neg (show ¬ t.kind = .error from hne)]
        rfl

/-- Moving on is the same on one line. -/
theorem oneLine_advance : s.oneLine.advance = s.advance.oneLine :=
  oneLine_readFrom { s with previous := s.current } s.upcoming.ahead

/-! ### Code and constants -/

/-- A change of the current function that has nothing to do with lines is the same on one line. -/
theorem oneLine_modifyFunction {f g : FunctionState → FunctionState}
    (h : g s.functions.current.oneLine = (f s.functions.current).oneLine) :
    s.oneLine.modifyFunction g = (s.modifyFunction f).oneLine := by
  have hmodified (u : Session) (k : FunctionState → FunctionState) : u.modifyFunction k =
    { u with functions := ⟨k u.functions.current, u.functions.enclosing⟩ } := rfl
  rw [hmodified, hmodified, show s.oneLine.functions.current = s.functions.current.oneLine from rfl,
    h]
  rfl

/-- A change of its chunk that has nothing to do with lines is the same on one line. -/
theorem oneLine_modifyChunk {f g : Chunk → Chunk} (h : g s.chunk.oneLine = (f s.chunk).oneLine) :
    s.oneLine.modifyChunk g = (s.modifyChunk f).oneLine :=
  s.oneLine_modifyFunction (congrArg (fun c => { s.functions.current with chunk := c }) h)

/-- Loading a value is the same on one line. -/
theorem oneLine_load (v : Value) : s.oneLine.load v = (s.load v).oneLine := by
  have hfull : s.oneLine.chunk.isFull = s.chunk.isFull := rfl
  rw [load, load, hfull]
  split
  · exact s.oneLine_fail _
  · exact s.oneLine_modifyChunk (s.chunk.writeLoad_oneLine v s.previous.line)

/-- What filling in a distance does, case by case. -/
theorem patchJump_eq (offset : Nat) :
    s.patchJump offset =
      if s.chunk.size < offset + 2 then .error .misplacedJump
      else if s.chunk.size - (offset + 2) ≤ maxJump then
        (s.chunk.patch16 offset (s.chunk.size - (offset + 2))).map fun c => s.modifyChunk fun _ => c
      else .ok (s.fail .jumpTooLong) := by
  simp only [patchJump]
  split
  · rfl
  · split
    · split
      next c hc =>
        have hpatch : s.chunk.patch16 offset (s.chunk.size - (offset + 2)) = .ok c := hc
        rw [hpatch]
        rfl
      next fault hfault =>
        have hpatch : s.chunk.patch16 offset (s.chunk.size - (offset + 2)) = .error fault := hfault
        rw [hpatch]
        rfl
    · rfl

/-- Filling in a distance is the same on one line. -/
theorem oneLine_patchJump (offset : Nat) :
    s.oneLine.patchJump offset = (s.patchJump offset).map oneLine := by
  have hsize : s.oneLine.chunk.size = s.chunk.size := rfl
  have hpatch := s.chunk.patch16_oneLine offset (s.chunk.size - (offset + 2))
  rw [patchJump_eq, patchJump_eq, hsize]
  split
  · rfl
  · split
    · rw [show s.oneLine.chunk = s.chunk.oneLine from rfl, hpatch]
      cases s.chunk.patch16 offset (s.chunk.size - (offset + 2)) <;> rfl
    · exact congrArg Except.ok (s.oneLine_fail _)

/-- Adding a constant is the same on one line. -/
theorem oneLine_addConstant (v : Value) :
    s.oneLine.addConstant v = (s.addConstant v).map fun r => (r.1, r.2.oneLine) := by
  have hsize : s.oneLine.chunk.constants.size = s.chunk.constants.size := rfl
  have hadded : s.oneLine.modifyChunk (fun c => (c.addConstant v).2) =
      (s.modifyChunk fun c => (c.addConstant v).2).oneLine := s.oneLine_modifyChunk rfl
  simp only [addConstant, hsize, hadded]
  split
  · cases narrow s.chunk.constants.size <;> rfl
  · rw [oneLine_fail]
    rfl

/-- What a session holds has nothing to do with lines. -/
theorem roots_oneLine :
    roots (s.oneLine.host, s.oneLine.functions) = roots (s.host, s.functions) :=
  congrArg (s.host ++ ·) s.functions.roots_oneLine

/-- Interning a text is the same on one line. -/
theorem oneLine_intern (text : String) :
    s.oneLine.intern text = ((s.intern text).1, (s.intern text).2.oneLine) := by
  have hheap : s.oneLine.heap.intern text (s.oneLine.host, s.oneLine.functions) =
      s.heap.oneLine.intern text (s.host, s.functions) := by
    rw [Heap.intern, Heap.intern, collectIfDue, collectIfDue]
    rw [s.roots_oneLine]
    rfl
  rw [intern_oneLine] at hheap
  have hinterned (u : Session) : u.intern text = ((u.heap.intern text (u.host, u.functions)).1,
    { u with heap := (u.heap.intern text (u.host, u.functions)).2 }) := rfl
  rw [hinterned, hinterned, hheap]
  rfl

/-- A change of the heap replaces it, if the change succeeds. -/
theorem changeHeap_eq (change : Heap → Checked Heap) :
    s.changeHeap change = (change s.heap).map fun k => { s with heap := k } := by
  rw [changeHeap]
  cases change s.heap <;> rfl

/-- A change of the heap that has nothing to do with lines is the same on one line. -/
theorem oneLine_changeHeap {change change' : Heap → Checked Heap}
    (h : change' s.heap.oneLine = (change s.heap).map Heap.oneLine) :
    s.oneLine.changeHeap change' = (s.changeHeap change).map oneLine := by
  rw [changeHeap_eq, changeHeap_eq, show s.oneLine.heap = s.heap.oneLine from rfl, h]
  cases change s.heap <;> rfl

/-- Naming a function is the same on one line. -/
theorem oneLine_setName (f : FunctionHandle) (name : Option StringHandle) :
    s.oneLine.changeHeap (·.setName f name) = (s.changeHeap (·.setName f name)).map oneLine :=
  s.oneLine_changeHeap (s.heap.setName_oneLine f name)

/-- Putting a function into the heap is the same on one line. -/
theorem oneLine_store (st : FunctionState) :
    s.oneLine.store st.oneLine = (s.store st).map oneLine :=
  s.oneLine_changeHeap (s.heap.modifyFunction_oneLine st.function fun _ => rfl)

/-- Ending a function is the same on one line. -/
theorem oneLine_endFunction :
    s.oneLine.endFunction = s.endFunction.map fun r => (r.1, r.2.oneLine) := by
  obtain ⟨host, upcoming, previous, current, recovering, diagnostics,
    ⟨st, - | ⟨parent, rest⟩⟩, heap⟩ := s
  · rfl
  · have hstore := oneLine_store
      ⟨host, upcoming, previous, current, recovering, diagnostics, ⟨parent, rest⟩, heap⟩ st
    simp only [endFunction, oneLine, FunctionStack.oneLine, FunctionStack.pop?, List.map_cons]
      at hstore ⊢
    rw [hstore]
    cases store _ st with
    | error fault => rfl
    | ok u =>
        have hdisplay : u.oneLine.heap.display (.function st.function) =
            u.heap.display (.function st.function) := u.heap.display_oneLine _
        simp only [Except.map, ok_bind]
        rw [show st.oneLine.function = st.function from rfl, hdisplay, u.oneLine_addConstant]
        cases u.heap.display (.function st.function) with
        | error fault => rfl
        | ok text => cases u.addConstant (.function st.function) <;> rfl

end Session

/-! ### Actions -/

/-- What an action does is what it would do on one line. -/
theorem Action.apply_oneLine {β : Type} (a : Action β) (s : Session) :
    a.apply s.oneLine = (a.apply s).map fun r => (r.1, r.2.oneLine) := by
  cases a with
  | advance => exact congrArg (fun t => Except.ok ((), t)) s.oneLine_advance
  | fail problem => exact congrArg (fun t => Except.ok ((), t)) (s.oneLine_fail problem)
  | failHere problem => exact congrArg (fun t => Except.ok ((), t)) (s.oneLine_failHere problem)
  | resume | countParameter => rfl
  | emit op operands =>
      exact congrArg (fun t => Except.ok ((), t)) <| s.oneLine_modifyChunk
        (f := (·.writeInstruction op operands s.previous.line))
        (g := (·.writeInstruction op operands 1))
        (s.chunk.writeInstruction_oneLine op operands s.previous.line)
  | patchJump offset =>
      rw [apply, apply, s.oneLine_patchJump]
      cases s.patchJump offset <;> rfl
  | loadNumber =>
      refine congrArg (fun t => Except.ok ((), t)) ?_
      rw [Session.loadNumber, Session.loadNumber, show s.oneLine.previous.lexeme =
        s.previous.lexeme from rfl]
      split
      · exact s.oneLine_load _
      · exact s.oneLine_fail _
  | loadString =>
      rw [apply, apply, Session.loadString, Session.loadString, show s.oneLine.previous.lexeme =
        s.previous.lexeme from rfl]
      cases Session.unquote s.previous.lexeme with
      | error fault => rfl
      | ok text =>
          simp only [ok_bind, s.oneLine_intern, Session.oneLine_load]
          rfl
  | nameConstant =>
      rw [apply, apply, Session.nameConstant, Session.nameConstant,
        show s.oneLine.previous.lexeme = s.previous.lexeme from rfl]
      simp only [s.oneLine_intern, Session.oneLine_addConstant]
  | beginScope => rfl
  | endScope =>
      rw [apply, apply, Session.endScope, Session.endScope,
        show s.oneLine.functions.current = s.functions.current.oneLine from rfl,
        FunctionState.endScope, FunctionState.endScope,
        show s.functions.current.oneLine.scopeDepth = s.functions.current.scopeDepth from rfl]
      split <;> rfl
  | declare =>
      refine congrArg (fun t => Except.ok ((), t)) ?_
      rw [Session.declare, Session.declare,
        show s.oneLine.functions.current = s.functions.current.oneLine from rfl,
        show s.oneLine.previous.lexeme = s.previous.lexeme from rfl,
        FunctionState.declareLocal_oneLine]
      cases s.functions.current.declareLocal s.previous.lexeme with
      | ok st => rfl
      | error e => exact s.oneLine_fail _
  | markInitialized =>
      refine congrArg (fun t => Except.ok ((), t)) (s.oneLine_modifyFunction ?_)
      rw [FunctionState.markInitialized, FunctionState.markInitialized,
        show s.functions.current.oneLine.scopeDepth = s.functions.current.scopeDepth from rfl,
        show s.functions.current.oneLine.locals = s.functions.current.locals from rfl]
      split <;> rfl
  | findUpvalue =>
      have hfound : s.oneLine.functions.resolveUpvalue s.previous.lexeme =
          ((s.functions.resolveUpvalue s.previous.lexeme).1,
            (s.functions.resolveUpvalue s.previous.lexeme).2.oneLine) := by
        have h := resolveCapture_oneLine s.previous.lexeme s.functions.current s.functions.enclosing
        exact congrArg (fun r => (r.1, FunctionStack.mk r.2.1 r.2.2)) h
      exact congrArg (fun r => Except.ok (r.1, { s.oneLine with functions := r.2 })) hfound
  | beginFunction =>
      have hheap : s.oneLine.heap.allocFunction (s.oneLine.host, s.oneLine.functions) =
          s.heap.oneLine.allocFunction (s.host, s.functions) := by
        rw [allocFunction, allocFunction, collectIfDue, collectIfDue, s.roots_oneLine]
        rfl
      rw [allocFunction_oneLine] at hheap
      have hbegun (u : Session) : u.beginFunction = { u with
          functions := u.functions.push
            (.start (u.heap.allocFunction (u.host, u.functions)).1 .function)
          heap := (u.heap.allocFunction (u.host, u.functions)).2 } := rfl
      refine congrArg (fun t => Except.ok ((), t)) ?_
      rw [hbegun, hbegun, hheap]
      rfl
  | nameFunction =>
      rw [apply, apply, Session.nameFunction, Session.nameFunction,
        show s.oneLine.previous.lexeme = s.previous.lexeme from rfl, s.oneLine_intern,
        show s.oneLine.functions.current.function = s.functions.current.function from rfl]
      dsimp only
      rw [Session.oneLine_setName]
      cases (s.intern s.previous.lexeme).2.changeHeap _ <;> rfl
  | endFunction =>
      rw [apply, apply, s.oneLine_endFunction]

/-! ### Runs -/

/-- No answer tells on which line a token stands. -/
theorem Query.answer_oneLine {β : Type} (s : Session) (q : Query β) :
    q.answer s.oneLine = q.answer s := by
  cases q <;> rfl

/-- What a compilation does is what it would do on one line. -/
theorem CompileM.run_oneLine {α : Type} (m : CompileM α) (s : Session) :
    m.run s.oneLine = (m.run s).map fun r => (r.1, r.2.oneLine) := by
  induction m generalizing s with
  | done result => cases result <;> rfl
  | ask q => exact congrArg (fun b => Except.ok (b, s.oneLine)) (q.answer_oneLine s)
  | act a => exact a.apply_oneLine s
  | chain first next ihFirst ihNext =>
      rw [run, run, ihFirst]
      cases first.run s with
      | error fault => rfl
      | ok r => exact ihNext r.1 r.2
  | part phrase body ih => exact ih s

end LoxBytecode
