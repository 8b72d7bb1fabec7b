import LoxBytecode.Proofs.Session.Lines

/-!
# Sessions under Other Labels

A session names variables by texts and objects by handles, and it decides nothing by either, but
for which texts are equal. `Session.relabel` puts other texts, different ones for different ones,
and other values and handles in their places, and leaves out the heap. Every action that neither
makes an object nor reads the text of a token for a constant commutes with that
(`Action.apply_relabel`), and queries have the same answers.

Errors are the one kind of token whose text is a message, so the new texts have to be the old
ones there.
-/

namespace LoxBytecode

/-- Other texts, different ones for different ones, and other values and handles. -/
structure Relabeling where
  text : String → String
  injective : Function.Injective text
  /-- The end of the source and slot 0 have no text. -/
  empty : text "" = ""
  value : Value → Value
  handle : FunctionHandle → FunctionHandle

variable (L : Relabeling)

/-! ### What is relabelled -/

def Token.relabel (t : Token) : Token :=
  { t with lexeme := L.text t.lexeme }

def TokenStream.relabel (s : TokenStream) : TokenStream :=
  ⟨s.ahead.map (Token.relabel L), s.endLine⟩

def Location.relabel : Location → Location
  | .atToken lexeme => .atToken (L.text lexeme)
  | .atEnd => .atEnd
  | .lexical => .lexical

/-- The diagnostic at the token with the other text. -/
def Diagnostic.relabel (d : Diagnostic) : Diagnostic :=
  { d with location := d.location.relabel L }

def Local.relabel (l : Local) : Local :=
  { l with name := L.text l.name }

def Chunk.relabel (c : Chunk) : Chunk :=
  { c with constants := c.constants.map L.value }

def FunctionState.relabel (st : FunctionState) : FunctionState :=
  { st with
    function := L.handle st.function
    chunk := st.chunk.relabel L
    locals := st.locals.map (Local.relabel L) }

def FunctionStack.relabel (s : FunctionStack) : FunctionStack :=
  ⟨s.current.relabel L, s.enclosing.map (FunctionState.relabel L)⟩

/-- The session under other labels, without a heap. -/
def Session.relabel (s : Session) : Session where
  host := []
  upcoming := s.upcoming.relabel L
  previous := s.previous.relabel L
  current := s.current.relabel L
  recovering := s.recovering
  diagnostics := s.diagnostics.map (Diagnostic.relabel L)
  functions := s.functions.relabel L
  heap := .ofConfig .standard

/-- The end of the source has nothing to replace. -/
theorem Token.relabel_eof (line : Nat) : (Token.eof line).relabel L = Token.eof line := by
  rw [Token.relabel, show (Token.eof line).lexeme = "" from rfl, L.empty]
  rfl

/-- The location of a token has its text replaced. -/
theorem Location.ofToken_relabel (t : Token) :
    Location.ofToken (t.relabel L) = (Location.ofToken t).relabel L := by
  obtain ⟨kind, lexeme, line⟩ := t
  cases kind <;> rfl

/-! ### Chunks -/

namespace Chunk

variable (c : Chunk)

/-- Replacing texts and handles has nothing to do with the bytes of a chunk. -/
theorem write_relabel (byte : UInt8) (line : Nat) :
    (c.relabel L).write byte line = (c.write byte line).relabel L := by
  obtain ⟨code, constants, lines⟩ := c
  by_cases hrun : lines.back?.any (·.line == line) = true <;> simp [relabel, write, hrun]

/-- Replacing texts and handles has nothing to do with the instructions of a chunk. -/
theorem writeInstruction_relabel (op : Opcode) (operands : List UInt8) (line : Nat) :
    (c.relabel L).writeInstruction op operands line =
      (c.writeInstruction op operands line).relabel L := by
  rw [writeInstruction, writeInstruction, c.write_relabel L op.toByte line]
  generalize c.write op.toByte line = c'
  rw [writeBytes, writeBytes]
  induction operands generalizing c' with
  | nil => rfl
  | cons byte bytes ih => rw [List.foldl_cons, List.foldl_cons, c'.write_relabel L byte line, ih]

/-- There are as many constants as before. -/
theorem size_constants_relabel : (c.relabel L).constants.size = c.constants.size :=
  Array.size_map

/-- A constant that is added can be replaced before or after. -/
theorem addConstant_relabel (v : Value) :
    ((c.relabel L).addConstant (L.value v)).2 = (c.addConstant v).2.relabel L :=
  congrArg (fun constants => Chunk.mk c.code constants c.lines) Array.map_push.symm

/-- A constant that is loaded can be replaced before or after. -/
theorem writeLoad_relabel (v : Value) (line : Nat) :
    (c.relabel L).writeLoad (L.value v) line = (c.writeLoad v line).relabel L := by
  have hsize : ((c.relabel L).addConstant (L.value v)).1 = (c.addConstant v).1 :=
    c.size_constants_relabel L
  simp only [writeLoad, hsize, c.addConstant_relabel L, writeInstruction_relabel]

/-- Filling in a distance has nothing to do with what is replaced. -/
theorem patch16_relabel (offset value : Nat) :
    (c.relabel L).patch16 offset value = (c.patch16 offset value).map (relabel L) := by
  rw [patch16, patch16, show (c.relabel L).code = c.code from rfl]
  split <;> rfl

end Chunk

/-! ### Functions -/

namespace FunctionState

variable (st : FunctionState)

/-- A new function has its handle replaced. -/
theorem relabel_start (f : FunctionHandle) (kind : FunctionKind) :
    (start f kind).relabel L = start (L.handle f) kind := by
  simp [relabel, start, Chunk.relabel, Chunk.empty, reserved, Local.relabel, L.empty]

/-- Which locals a scope owns does not depend on their names. -/
theorem isWithin_relabel (depth : Nat) : isWithin depth ∘ Local.relabel L = isWithin depth := rfl

/-- Leaving a scope commutes with replacing. -/
theorem endScope_relabel : (st.relabel L).endScope =
    st.endScope.map fun r => (r.1, r.2.relabel L) := by
  rw [endScope, endScope, show (st.relabel L).scopeDepth = st.scopeDepth from rfl]
  split
  · rfl
  next depth _ =>
    have hlocals : (st.relabel L).locals = st.locals.map (Local.relabel L) := rfl
    simp only [hlocals, List.takeWhile_map, List.dropWhile_map, isWithin_relabel, List.map_map]
    rfl

/-- A local gets the new name. -/
theorem addLocal_relabel (name : String) :
    (st.relabel L).addLocal (L.text name) = (st.addLocal name).map (relabel L) := by
  have hlength : (st.relabel L).locals.length = st.locals.length := List.length_map ..
  rw [addLocal, addLocal, hlength]
  split <;> rfl

/-- Texts clash where they did. -/
theorem declareLocal_relabel (name : String) :
    (st.relabel L).declareLocal (L.text name) = (st.declareLocal name).map (relabel L) := by
  have hclash : (fun l : Local => l.name == L.text name) ∘ Local.relabel L =
      fun l => l.name == name := by
    funext l
    exact Bool.eq_iff_iff.mpr (by simp [Local.relabel, L.injective.eq_iff])
  have howned : (fun l : Local => !l.depth.any (· < st.scopeDepth)) ∘ Local.relabel L =
      fun l => !l.depth.any (· < st.scopeDepth) := rfl
  have hlocals : (st.relabel L).locals = st.locals.map (Local.relabel L) := rfl
  rw [declareLocal, declareLocal, show (st.relabel L).scopeDepth = st.scopeDepth from rfl]
  simp only [hlocals, List.takeWhile_map, howned, List.any_map, hclash, addLocal_relabel]
  split <;> rfl

/-- Making it readable commutes with replacing. -/
theorem markInitialized_relabel :
    (st.relabel L).markInitialized = st.markInitialized.relabel L := by
  obtain ⟨function, kind, chunk, arity, locals, upvalues, depth⟩ := st
  cases depth <;> cases locals <;> rfl

/-- Texts are found where they were. -/
theorem findLocal?_relabel (name : String) (ls : List Local) :
    findLocal? (L.text name) (ls.map (Local.relabel L)) =
      (findLocal? name ls).map fun found => (found.1, found.2.relabel L) := by
  induction ls with
  | nil => rfl
  | cons l ls ih =>
      have hname : (l.relabel L).name = L.text name ↔ l.name = name := L.injective.eq_iff
      rw [List.map_cons, findLocal?, findLocal?, List.length_map, ih]
      by_cases hl : l.name = name
      · rw [if_pos hl, if_pos (hname.mpr hl)]
        rfl
      · rw [if_neg hl, if_neg (hl ∘ hname.mp)]

/-- Under the new name the same slot is found. -/
theorem resolveLocal_relabel (name : String) :
    (st.relabel L).resolveLocal (L.text name) = st.resolveLocal name := by
  have hlocals : (st.relabel L).locals = st.locals.map (Local.relabel L) := rfl
  rw [resolveLocal, resolveLocal, hlocals, findLocal?_relabel]
  cases findLocal? name st.locals with
  | none => rfl
  | some found => rfl

/-- Marking a local commutes with replacing. -/
theorem capture_relabel (slot : Nat) :
    (st.relabel L).capture slot = (st.capture slot).relabel L := by
  have hlength : (st.relabel L).locals.length = st.locals.length := List.length_map ..
  have hmodify (i : Nat) : (st.locals.map (Local.relabel L)).modify i
      (fun l => { l with captured := true }) =
        (st.locals.modify i fun l => { l with captured := true }).map (Local.relabel L) := by
    refine List.ext_getElem? fun j => ?_
    simp only [List.getElem?_modify, List.getElem?_map]
    split <;> cases st.locals[j]? <;> rfl
  rw [capture, capture, hlength]
  split
  · exact congrArg (fun ls => { st.relabel L with locals := ls }) (hmodify _)
  · rfl

/-- Adding a capture commutes with replacing. -/
theorem addUpvalue_relabel (c : Capture) :
    (st.relabel L).addUpvalue c = ((st.addUpvalue c).1, (st.addUpvalue c).2.relabel L) := by
  rw [addUpvalue, addUpvalue, show (st.relabel L).upvalues = st.upvalues from rfl]
  cases st.upvalues.idxOf? c with
  | some index => rfl
  | none =>
      dsimp only
      split <;> rfl

end FunctionState

/-- The search for a capture finds the same. -/
theorem resolveCapture_relabel (name : String) (inner : FunctionState)
    (outers : List FunctionState) :
    resolveCapture (L.text name) (inner.relabel L) (outers.map (FunctionState.relabel L)) =
      ((resolveCapture name inner outers).1, (resolveCapture name inner outers).2.1.relabel L,
        (resolveCapture name inner outers).2.2.map (FunctionState.relabel L)) := by
  induction outers generalizing inner with
  | nil => rfl
  | cons outer rest ih =>
      rw [List.map_cons, resolveCapture, resolveCapture, outer.resolveLocal_relabel L]
      cases outer.resolveLocal name with
      | error e => rfl
      | ok found =>
          cases found with
          | some slot =>
              simp only [FunctionState.addUpvalue_relabel, FunctionState.capture_relabel,
                List.map_cons]
          | none =>
              simp only [ih]
              rcases resolveCapture name outer rest with ⟨e | (- | index), outer', rest'⟩
              · rfl
              · rfl
              · simp only [FunctionState.addUpvalue_relabel, List.map_cons]

/-! ### Sessions -/

namespace Session

variable (s : Session)

/-- Reporting at a token commutes with replacing, which gives the diagnostic the new token. -/
theorem report_relabel (t : Token) (message : String) :
    (s.relabel L).report (t.relabel L) message = (s.report t message).relabel L := by
  cases hr : s.recovering with
  | true => simp [report, relabel, hr]
  | false =>
      simp [report, relabel, hr, Location.ofToken_relabel, Diagnostic.relabel]
      rfl

/-- Reporting a problem at the token just passed commutes with replacing. -/
theorem fail_relabel (problem : Problem) :
    (s.relabel L).fail problem = (s.fail problem).relabel L :=
  s.report_relabel L s.previous problem.message

/-- Reporting a problem at the current token commutes with replacing. -/
theorem failHere_relabel (problem : Problem) :
    (s.relabel L).failHere problem = (s.failHere problem).relabel L :=
  s.report_relabel L s.current problem.message

/-- Tokens are read alike if the messages of errors stay. -/
theorem readFrom_relabel {ts : List Token}
    (hts : ∀ t ∈ ts, t.kind = .error → L.text t.lexeme = t.lexeme) :
    (s.relabel L).readFrom (ts.map (Token.relabel L)) = (s.readFrom ts).relabel L := by
  induction ts generalizing s with
  | nil =>
      rw [List.map_nil, readFrom, readFrom, relabel, relabel]
      simp only [Token.relabel_eof]
      rfl
  | cons t ts ih =>
      obtain ⟨ht, hts⟩ := List.forall_mem_cons.mp hts
      rw [List.map_cons, readFrom, readFrom]
      by_cases herror : t.kind = .error
      · have hmessage : (t.relabel L).lexeme = t.lexeme := ht herror
        rw [if_pos herror, if_pos (show (t.relabel L).kind = .error from herror), hmessage,
          s.report_relabel L]
        exact ih _ hts
      · rw [if_neg herror, if_neg (show ¬ (t.relabel L).kind = .error from herror)]
        rfl

/-- Moving on commutes with replacing if the messages of errors stay. -/
theorem advance_relabel
    (hs : ∀ t ∈ s.upcoming.ahead, t.kind = .error → L.text t.lexeme = t.lexeme) :
    (s.relabel L).advance = s.advance.relabel L :=
  readFrom_relabel L { s with previous := s.current } hs

/-- A change of the current function commutes if it does for that function. -/
theorem modifyFunction_relabel {f g : FunctionState → FunctionState}
    (h : g (s.functions.current.relabel L) = (f s.functions.current).relabel L) :
    (s.relabel L).modifyFunction g = (s.modifyFunction f).relabel L := by
  have hmodified (u : Session) (k : FunctionState → FunctionState) : u.modifyFunction k =
    { u with functions := ⟨k u.functions.current, u.functions.enclosing⟩ } := rfl
  rw [hmodified, hmodified,
    show (s.relabel L).functions.current = s.functions.current.relabel L from rfl, h]
  rfl

/-- A change of its chunk commutes if it does for that chunk. -/
theorem modifyChunk_relabel {f g : Chunk → Chunk}
    (h : g (s.chunk.relabel L) = (f s.chunk).relabel L) :
    (s.relabel L).modifyChunk g = (s.modifyChunk f).relabel L :=
  s.modifyFunction_relabel L
    (congrArg (fun c => { s.functions.current.relabel L with chunk := c }) h)

/-- Loading a value commutes with replacing. -/
theorem load_relabel (v : Value) :
    (s.relabel L).load (L.value v) = (s.load v).relabel L := by
  have hfull : (s.relabel L).chunk.isFull = s.chunk.isFull := by
    rw [Chunk.isFull, Chunk.isFull, show (s.relabel L).chunk = s.chunk.relabel L from rfl,
      Chunk.size_constants_relabel]
  rw [load, load, hfull]
  split
  · exact s.fail_relabel L _
  · exact s.modifyChunk_relabel L (s.chunk.writeLoad_relabel L v s.previous.line)

/-- Adding a constant commutes with replacing. -/
theorem addConstant_relabel (v : Value) :
    (s.relabel L).addConstant (L.value v) = (s.addConstant v).map fun r => (r.1, r.2.relabel L) := by
  have hsize : (s.relabel L).chunk.constants.size = s.chunk.constants.size :=
    s.chunk.size_constants_relabel L
  have hadded : (s.relabel L).modifyChunk (fun c => (c.addConstant (L.value v)).2) =
      (s.modifyChunk fun c => (c.addConstant v).2).relabel L :=
    s.modifyChunk_relabel L (s.chunk.addConstant_relabel L v)
  simp only [addConstant, hsize, hadded]
  split
  · cases narrow s.chunk.constants.size <;> rfl
  · rw [fail_relabel]
    rfl

/-- Filling in a distance commutes with replacing. -/
theorem patchJump_relabel (offset : Nat) :
    (s.relabel L).patchJump offset = (s.patchJump offset).map (relabel L) := by
  have hsize : (s.relabel L).chunk.size = s.chunk.size := rfl
  have hpatch := s.chunk.patch16_relabel L offset (s.chunk.size - (offset + 2))
  rw [patchJump_eq, patchJump_eq, hsize]
  split
  · rfl
  · split
    · rw [show (s.relabel L).chunk = s.chunk.relabel L from rfl, hpatch]
      cases s.chunk.patch16 offset (s.chunk.size - (offset + 2)) <;> rfl
    · exact congrArg Except.ok (s.fail_relabel L _)

/-- Leaving a scope of the innermost function commutes with replacing. -/
theorem endScope_relabel :
    (s.relabel L).endScope = s.endScope.map fun r => (r.1, r.2.relabel L) := by
  rw [endScope, endScope,
    show (s.relabel L).functions.current = s.functions.current.relabel L from rfl,
    FunctionState.endScope_relabel]
  cases s.functions.current.endScope with
  | error fault => rfl
  | ok r => exact congrArg (fun t => Except.ok (r.1, t)) (s.modifyFunction_relabel L rfl)

/-- Declaring a local commutes with replacing. -/
theorem declare_relabel : (s.relabel L).declare = s.declare.relabel L := by
  rw [declare, declare,
    show (s.relabel L).functions.current = s.functions.current.relabel L from rfl,
    show (s.relabel L).previous.lexeme = L.text s.previous.lexeme from rfl,
    FunctionState.declareLocal_relabel]
  cases s.functions.current.declareLocal s.previous.lexeme with
  | ok st => exact s.modifyFunction_relabel L rfl
  | error e => exact s.fail_relabel L _

/-- Resolving a name among the functions around commutes with replacing. -/
theorem findUpvalue_relabel :
    (s.relabel L).findUpvalue = (s.findUpvalue.1, s.findUpvalue.2.relabel L) := by
  have hfound (u : Session) : u.findUpvalue = ((u.functions.resolveUpvalue u.previous.lexeme).1,
    { u with functions := (u.functions.resolveUpvalue u.previous.lexeme).2 }) := rfl
  have hresolve : (s.relabel L).functions.resolveUpvalue (L.text s.previous.lexeme) =
      ((s.functions.resolveUpvalue s.previous.lexeme).1,
        (s.functions.resolveUpvalue s.previous.lexeme).2.relabel L) :=
    congrArg (fun r => (r.1, FunctionStack.mk r.2.1 r.2.2))
      (resolveCapture_relabel L s.previous.lexeme s.functions.current s.functions.enclosing)
  rw [hfound, hfound, show (s.relabel L).previous.lexeme = L.text s.previous.lexeme from rfl,
    hresolve]
  rfl

end Session

/-! ### Queries and actions -/

/-- No answer tells a text or a handle. -/
theorem Query.answer_relabel {β : Type} (s : Session) (q : Query β) :
    q.answer (s.relabel L) = q.answer s := by
  cases q with
  | findLocal => exact s.functions.current.resolveLocal_relabel L s.previous.lexeme
  | currentKind | previousKind | recovering | codeSize | functionKind | arity | atTopScope => rfl

/-- The action makes an object, or a constant of the token just passed. -/
def Action.Makes {β : Type} : Action β → Prop
  | .loadNumber | .loadString | .nameConstant | .beginFunction | .nameFunction
  | .endFunction => True
  | _ => False

/-- Any other action leaves the functions what they hold. -/
theorem Action.cores_of_not_makes {β : Type} {a : Action β} (ha : ¬ a.Makes) {s t : Session}
    {b : β} (h : a.apply s = .ok (b, t)) : t.functions.cores = s.functions.cores := by
  have hcurrent {f : FunctionState → FunctionState}
      (hf : (f s.functions.current).core = s.functions.current.core) :
      (s.modifyFunction f).functions.cores = s.functions.cores :=
    List.cons_eq_cons.mpr ⟨hf, rfl⟩
  cases a with
  | loadNumber | loadString | nameConstant | beginFunction | nameFunction | endFunction =>
      exact absurd trivial ha
  | advance =>
      cases h
      exact congrArg _ (Session.functions_readFrom ..)
  | fail problem | failHere problem =>
      cases h
      exact congrArg _ (Session.functions_report ..)
  | resume =>
      cases h
      rfl
  | emit op operands =>
      cases h
      exact hcurrent (congrArg (Prod.mk _) (Chunk.constants_writeInstruction ..))
  | patchJump offset =>
      obtain ⟨u, hu, h⟩ := bind_eq_ok.mp h
      cases h
      rcases Session.patchJump_eq_ok hu with ⟨c, hpatch, -, -, rfl⟩ | ⟨-, rfl⟩
      · exact hcurrent (congrArg (Prod.mk _) (Chunk.constants_patch16 hpatch))
      · exact congrArg _ (Session.functions_report ..)
  | beginScope | countParameter =>
      cases h
      exact hcurrent rfl
  | endScope =>
      obtain ⟨⟨flags, st⟩, hst, h⟩ := bind_eq_ok.mp h
      cases h
      exact hcurrent (FunctionState.core_endScope hst)
  | declare =>
      cases h
      rw [Session.declare]
      split
      next st hst => exact hcurrent (FunctionState.core_declareLocal hst)
      next => exact congrArg _ (Session.functions_report ..)
  | markInitialized =>
      cases h
      exact hcurrent (FunctionState.core_markInitialized _)
  | findUpvalue =>
      cases h
      exact FunctionStack.cores_resolveUpvalue ..

/-- What such an action does is what it would do under other labels. -/
theorem Action.apply_relabel {β : Type} {a : Action β} (ha : ¬ a.Makes) {s : Session}
    (hs : ∀ t ∈ s.upcoming.ahead, t.kind = .error → L.text t.lexeme = t.lexeme) :
    a.apply (s.relabel L) = (a.apply s).map fun r => (r.1, r.2.relabel L) := by
  cases a with
  | loadNumber | loadString | nameConstant | beginFunction | nameFunction | endFunction =>
      exact absurd trivial ha
  | advance => exact congrArg (fun t => Except.ok ((), t)) (s.advance_relabel L hs)
  | fail problem => exact congrArg (fun t => Except.ok ((), t)) (s.fail_relabel L problem)
  | failHere problem => exact congrArg (fun t => Except.ok ((), t)) (s.failHere_relabel L problem)
  | resume | countParameter | beginScope => rfl
  | emit op operands =>
      exact congrArg (fun t => Except.ok ((), t)) <| s.modifyChunk_relabel L
        (f := (·.writeInstruction op operands s.previous.line))
        (g := (·.writeInstruction op operands s.previous.line))
        (s.chunk.writeInstruction_relabel L op operands s.previous.line)
  | patchJump offset =>
      rw [apply, apply, s.patchJump_relabel L]
      cases s.patchJump offset <;> rfl
  | endScope => exact s.endScope_relabel L
  | declare => exact congrArg (fun t => Except.ok ((), t)) (s.declare_relabel L)
  | markInitialized =>
      exact congrArg (fun t => Except.ok ((), t))
        (s.modifyFunction_relabel L (s.functions.current.markInitialized_relabel L))
  | findUpvalue => exact congrArg Except.ok (s.findUpvalue_relabel L)

end LoxBytecode
