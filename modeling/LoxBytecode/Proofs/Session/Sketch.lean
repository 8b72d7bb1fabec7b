import Mathlib
import LoxBytecode.Proofs.Heap.Outline
import LoxBytecode.Proofs.Session.Careful
import LoxBytecode.Proofs.Session.Relabeling
import LoxBytecode.Proofs.Session.Twins

/-!
# Sketches of Sessions

A compilation can be carried out without a heap when texts stand where it has strings
(`CompileM.sketch`): a `Sketch` has the tokens, the scopes, the code and the diagnostics of a
session, with all values and handles left blank, and beside them what each function being compiled
refers to and the outlines of those that are finished. The sketch says of each text where it came
from; which texts are equal, it does not ask.

A careful compilation that starts as sketched goes on so and ends so (`CompileM.depicts`),
however its heap collects and whatever it shares. That is because everything finished stays as it
was, and because the name of a function being compiled stays in its object.
-/

namespace LoxBytecode

open Heap

/-! ### Sketches -/

/-- The labels of which nothing but the texts are left. -/
def Relabeling.blank : Relabeling where
  text := id
  injective := Function.injective_id
  empty := rfl
  value _ := .nil
  handle _ := ⟨0⟩

/-- A session without a heap. -/
structure Sketch where
  /-- The session, with blank values and handles. -/
  session : Session
  /-- What the functions being compiled refer to, innermost first. -/
  holdings : List Holdings
  /-- The functions that are finished, in the order of their ends. -/
  finished : List FunctionOutline

/-- What a function comes to when it ends. -/
def FunctionOutline.of (st : FunctionState) (p : Holdings) : FunctionOutline :=
  ⟨p, st.arity, st.upvalues.length, st.chunk.code, st.chunk.lines⟩

namespace Sketch

/-- Note a constant of the current function. -/
def hold (k : Sketch) (c : Origin) : Sketch :=
  { k with
    holdings := k.holdings.modifyHead fun p => { p with constants := p.constants ++ [c] } }

/-- Write the load of a constant. -/
def load (k : Sketch) (c : Origin) : Sketch :=
  { (if k.session.chunk.isFull then k else k.hold c) with session := k.session.load .nil }

/-- Add a constant for an instruction that names it by one byte. -/
def addConstant (k : Sketch) (c : Origin) : Option (UInt8 × Sketch) :=
  (k.session.addConstant .nil).toOption.map fun r => (r.1, { k.hold c with session := r.2 })

/-- Write the load of the number just passed. -/
def loadNumber (k : Sketch) : Sketch :=
  match Number.ofText? k.session.previous.lexeme with
  | some x => k.load (.number x)
  | none => { k with session := k.session.fail .invalidNumber }

/-- Begin a nested function. -/
def beginFunction (k : Sketch) : Sketch :=
  { k with
    session :=
      { k.session with functions := k.session.functions.push (.start ⟨0⟩ .function) }
    holdings := ⟨none, []⟩ :: k.holdings }

/-- Name the current function by the token just passed. -/
def nameFunction (k : Sketch) : Sketch :=
  { k with
    holdings := k.holdings.modifyHead fun p =>
      { p with name := some k.session.previous.lexeme } }

/-- Without the current function, which is finished. -/
def pop (k : Sketch) (parent : FunctionState) (rest : List FunctionState) (p : Holdings)
    (ps : List Holdings) : Sketch :=
  ⟨{ k.session with functions := ⟨parent, rest⟩ }, ps,
    k.finished ++ [.of k.session.functions.current p]⟩

/-- End the current function. -/
def endFunction (k : Sketch) : Option ((UInt8 × List Capture) × Sketch) :=
  match k.session.functions.enclosing, k.holdings with
  | parent :: rest, p :: ps =>
    ((k.pop parent rest p ps).addConstant (.function k.finished.length)).map fun r =>
      ((r.1, k.session.functions.current.upvalues), r.2)
  | _, _ => none

/-- A function that ends is finished and becomes a constant of the one around it. -/
theorem endFunction_of_cons {k : Sketch} {parent : FunctionState} {rest : List FunctionState}
    {p : Holdings} {ps : List Holdings}
    (henclosing : k.session.functions.enclosing = parent :: rest) (hholdings : k.holdings = p :: ps) :
    k.endFunction = ((k.pop parent rest p ps).addConstant (.function k.finished.length)).map
      fun r => ((r.1, k.session.functions.current.upvalues), r.2) := by
  rw [endFunction, henclosing, hholdings]

end Sketch

/-- What an action does to a sketch. Numbers are loaded behind numbers only, and strings behind
strings. -/
def Action.sketch {β : Type} (k : Sketch) : Action β → Option (β × Sketch)
  | .loadNumber => if k.session.previous.kind = .number then some ((), k.loadNumber) else none
  | .loadString =>
    if k.session.previous.kind = .string then
      (Session.unquote k.session.previous.lexeme).toOption.map fun text =>
        ((), k.load (.literal text))
    else none
  | .nameConstant => k.addConstant (.name k.session.previous.lexeme)
  | .beginFunction => some ((), k.beginFunction)
  | .nameFunction => some ((), k.nameFunction)
  | .endFunction => k.endFunction
  | a => (a.apply k.session).toOption.map fun r => (r.1, { k with session := r.2 })

/-- What makes nothing new is done to the sketch as to a session. -/
theorem Action.sketch_of_not_makes {β : Type} {a : Action β} (ha : ¬ a.Makes) (k : Sketch) :
    a.sketch k = (a.apply k.session).toOption.map fun r => (r.1, { k with session := r.2 }) := by
  cases a with
  | loadNumber | loadString | nameConstant | beginFunction | nameFunction | endFunction =>
      exact absurd trivial ha
  | _ => rfl

/-- Carry a compilation out on a sketch. -/
def CompileM.sketch {α : Type} : CompileM α → Sketch → Option (α × Sketch)
  | .done (.ok a), k => some (a, k)
  | .done (.error _), _ => none
  | .ask q, k => some (q.answer k.session, k)
  | .act a, k => a.sketch k
  | .chain first next, k =>
    match first.sketch k with
    | some (b, k) => (next b).sketch k
    | none => none
  | .part _ body, k => body.sketch k

/-! ### Depicting a session -/

namespace Sketch

variable {k : Sketch} {fs fs' : List FunctionHandle} {s t : Session}

/-- A sketch has what there is of a session and of its functions, those being compiled and some
finished ones. -/
structure Draws (k : Sketch) (fs : List FunctionHandle) (s : Session) : Prop where
  session : k.session = s.relabel .blank
  begun : List.Forall₂ (s.heap.ShowsBegun fs) s.functions.cores k.holdings
  finished : List.Forall₂ (s.heap.ShowsFunction fs) fs k.finished

/-- The finished functions are different ones, and held by the constants of the others. -/
structure Depicts (k : Sketch) (fs : List FunctionHandle) (s : Session) : Prop
    extends k.Draws fs s where
  nodup : fs.Nodup
  held : ∀ f ∈ fs, s.heap.Reach s.functions.pool (.function f)

/-! ### What stays -/

/-- Finished functions show as they did after anything that preserves them. -/
theorem Depicts.finished_of_preserves (hk : k.Depicts fs s) (hst : Session.Preserves [] s t)
    (hfs : fs <+: fs') : List.Forall₂ (t.heap.ShowsFunction fs') fs k.finished := by
  refine ((List.forall₂_and_left _ _).mpr ⟨hk.held, hk.finished⟩).imp fun f o hf => ?_
  refine hf.2.of_agree hfs fun v hv => hst.agree v (hv.trans fun w hw => ?_)
  exact List.mem_singleton.mp hw ▸ hf.1

/-- The finished functions stay reachable. -/
theorem Depicts.held_of_preserves (hk : k.Depicts fs s) (hst : Session.Preserves [] s t) :
    ∀ f ∈ fs, t.heap.Reach t.functions.pool (.function f) :=
  fun f hf => hst.reach _ rfl (hk.held f hf)

/-- Functions being compiled show as they did where a heap agrees about all that they hold. -/
theorem Draws.begun_of_agree (hk : k.Draws fs s) {h : Heap} (hfs : fs <+: fs')
    (hagree : ∀ v, s.heap.Reach (roots s.functions) v → s.heap.Agree h v) :
    List.Forall₂ (h.ShowsBegun fs') s.functions.cores k.holdings := by
  have hroots : ∀ c ∈ s.functions.cores, s.heap.Reach (roots s.functions) (.function c.1) ∧
      ∀ v ∈ c.2.toList, s.heap.Reach (roots s.functions) v := by
    intro c hc
    refine ⟨.root (FunctionStack.mem_roots_iff.mpr (Or.inl ⟨c.1, List.mem_map_of_mem hc, rfl⟩)),
      fun v hv => .root (FunctionStack.mem_roots_iff.mpr (Or.inr ?_))⟩
    exact List.mem_flatMap.mpr ⟨c, hc, hv⟩
  refine ((List.forall₂_and_left _ _).mpr ⟨hroots, hk.begun⟩).imp fun c p hc => ?_
  obtain ⟨⟨hhandle, hconstants⟩, hshows⟩ := hc
  exact hshows.of_agree hfs (hagree _ hhandle)
    (fun o n ho hn => hagree _ (.child hhandle ho (mem_children_of_name hn)))
    fun n hn => hagree _ (hconstants _ hn)

/-- A change of one function's object leaves the others as they were. -/
theorem begun_of_modify {h h' : Heap} {f : FunctionHandle}
    {change : FunctionObject → FunctionObject} (hmodify : h.modifyFunction f change = .ok h')
    {cores : List (FunctionHandle × Array Value)} {ps : List Holdings}
    (hbegun : List.Forall₂ (h.ShowsBegun fs) cores ps) (hfs : fs <+: fs')
    (hother : ∀ c ∈ cores, c.1 ≠ f) : List.Forall₂ (h'.ShowsBegun fs') cores ps := by
  have hstring (n : StringHandle) : h.Agree h' (.string n) :=
    Heap.agree_modifyFunction hmodify (by rintro ⟨⟩)
  refine ((List.forall₂_and_left _ _).mpr ⟨hother, hbegun⟩).imp fun c p hc => ?_
  refine hc.2.of_agree hfs (Heap.agree_modifyFunction hmodify ?_) (fun _ n _ _ => hstring n)
    fun n _ => hstring n
  exact fun heq => hc.1 (Value.function.inj heq)

/-! ### Constants -/

/-- The current function gets one constant more. -/
theorem Draws.hold (hk : k.Draws fs s) {v : Value} {c : Origin} (hv : s.heap.Shows fs v c)
    (hheap : t.heap = s.heap)
    (hcores : t.functions.cores = (s.functions.current.function, s.chunk.constants.push v) ::
      s.functions.enclosing.map FunctionState.core) :
    { k.hold c with session := t.relabel .blank }.Draws fs t := by
  have hbegun := hk.begun
  obtain ⟨session, holdings, finished⟩ := k
  cases hbegun with
  | cons hhead hrest =>
  obtain ⟨o, ho, hshows⟩ := hhead
  refine ⟨rfl, ?_, hheap ▸ hk.finished⟩
  rw [hheap, hcores]
  exact .cons ⟨o, ho, hshows.push hv⟩ hrest

/-- The drawing stays the same where nothing but the tokens, the diagnostics and the scopes
changed. -/
theorem Draws.of_cores (hk : k.Draws fs s) (hheap : t.heap = s.heap)
    (hcores : t.functions.cores = s.functions.cores) :
    { k with session := t.relabel .blank }.Draws fs t := by
  refine ⟨rfl, ?_, hheap ▸ hk.finished⟩
  rw [hheap, hcores]
  exact hk.begun

/-- Loading a value draws its origin. -/
theorem Draws.load (hk : k.Draws fs s) {v : Value} {c : Origin} (hv : s.heap.Shows fs v c) :
    (k.load c).Draws fs (s.load v) := by
  have hfull : k.session.chunk.isFull = s.chunk.isFull := by
    rw [hk.session, Chunk.isFull, Chunk.isFull]
    exact congrArg (fun n => decide (_ ≤ n)) (s.chunk.size_constants_relabel .blank)
  have hload : k.session.load .nil = (s.load v).relabel .blank := by
    rw [hk.session]
    exact s.load_relabel .blank v
  rw [Sketch.load, hfull, hload]
  rw [Session.load]
  split
  · exact hk.of_cores (Session.heap_report ..) (congrArg _ (Session.functions_report ..))
  · refine hk.hold hv rfl ?_
    exact congrArg (fun constants => (_, constants) :: _) (Chunk.constants_writeLoad ..)

/-- Adding a constant draws its origin, at the same index. -/
theorem Draws.addConstant (hk : k.Draws fs s) {v : Value} {c : Origin} (hv : s.heap.Shows fs v c)
    {index : UInt8} (h : s.addConstant v = .ok (index, t)) :
    ∃ k', k.addConstant c = some (index, k') ∧ k'.Draws fs t := by
  have hadd : k.session.addConstant .nil = .ok (index, t.relabel .blank) := by
    rw [hk.session]
    exact (s.addConstant_relabel .blank v).trans (congrArg _ h)
  obtain ⟨hfunctions, hheap⟩ := Session.functions_heap_addConstant h
  refine ⟨{ k.hold c with session := t.relabel .blank }, ?_, hk.hold hv hheap ?_⟩
  · rw [Sketch.addConstant, hadd]
    rfl
  · rw [hfunctions]
    rfl

/-! ### Strings -/

/-- Interning a text changes nothing in the drawing if the finished functions still show the
same. -/
theorem Draws.intern (hk : k.Draws fs s) (hs : s.Sound []) (text : String)
    (hfinished : List.Forall₂ ((s.intern text).2.heap.ShowsFunction fs) fs k.finished) :
    k.Draws fs (s.intern text).2 := by
  have hgrown := intern_grown hs.wf text (s.host, s.functions)
  refine ⟨hk.session, hk.begun_of_agree (List.prefix_refl _) fun v hv => ?_, hfinished⟩
  exact hgrown.agree v (hs.reach_held hv) (hs.closed v hv)

/-- Interning a text changes nothing in the drawing, since a collection keeps what is held. -/
theorem Depicts.intern (hk : k.Depicts fs s) (hs : s.Sound []) (text : String) :
    k.Depicts fs (s.intern text).2 :=
  have hst := Session.Preserves.intern hs text
  ⟨hk.toDraws.intern hs text (hk.finished_of_preserves hst (List.prefix_refl _)), hk.nodup,
    hk.held_of_preserves hst⟩

/-- Loading a number draws the number. -/
theorem Draws.loadNumber (hk : k.Draws fs s) : k.loadNumber.Draws fs s.loadNumber := by
  have hlexeme : k.session.previous.lexeme = s.previous.lexeme := by
    rw [hk.session]
    rfl
  have hfail : k.session.fail .invalidNumber = (s.fail .invalidNumber).relabel .blank := by
    rw [hk.session]
    exact s.fail_relabel .blank _
  rw [Sketch.loadNumber, Session.loadNumber, hlexeme, hfail]
  cases Number.ofText? s.previous.lexeme with
  | some x => exact hk.load .number
  | none => exact hk.of_cores (Session.heap_report ..) (congrArg _ (Session.functions_report ..))

/-- Loading a string draws the text of it. -/
theorem Depicts.loadString (hk : k.Depicts fs s) (hs : s.Sound [])
    (hkind : s.previous.kind = .string) (h : s.loadString = .ok t) :
    ∃ k', Action.loadString.sketch k = some ((), k') ∧ k'.Draws fs t := by
  obtain ⟨text, htext, hload⟩ := bind_eq_ok.mp h
  cases hload
  have hunquote : Session.unquote k.session.previous.lexeme = .ok text := by
    rw [hk.session]
    exact htext
  have hstring : k.session.previous.kind = .string := by
    rw [hk.session]
    exact hkind
  refine ⟨k.load (.literal text), ?_, ?_⟩
  · rw [Action.sketch, if_pos hstring, hunquote]
    rfl
  · exact (hk.intern hs text).toDraws.load (.literal (hs.get?_intern text))

/-- Adding a name draws the name. -/
theorem Depicts.nameConstant (hk : k.Depicts fs s) (hs : s.Sound []) {index : UInt8}
    (h : s.nameConstant = .ok (index, t)) :
    ∃ k', Action.nameConstant.sketch k = some (index, k') ∧ k'.Draws fs t := by
  have hlexeme : k.session.previous.lexeme = s.previous.lexeme := by
    rw [hk.session]
    rfl
  rw [Action.sketch, hlexeme]
  exact (hk.intern hs s.previous.lexeme).toDraws.addConstant (.name (hs.get?_intern _)) h

/-! ### Functions -/

/-- A function begins with nothing. -/
theorem Depicts.beginFunction (hk : k.Depicts fs s) (hs : s.Sound []) :
    k.beginFunction.Draws fs s.beginFunction := by
  have hgrown := allocFunction_grown hs.wf (s.host, s.functions)
  have hst := Session.Preserves.beginFunction hs
  have hbegun := hk.begun_of_agree (List.prefix_refl _) fun v hv =>
    hgrown.agree v (hs.reach_held hv) (hs.closed v hv)
  refine ⟨?_, .cons ⟨_, get?_allocFunction hs.wf _, .none, .nil⟩ hbegun,
    hk.finished_of_preserves hst (List.prefix_refl _)⟩
  have hstart : FunctionState.start ⟨0⟩ .function =
      (FunctionState.start (s.heap.allocFunction (s.host, s.functions)).1 .function).relabel
        .blank := (FunctionState.relabel_start .blank _ _).symm
  rw [Sketch.beginFunction, hk.session, hstart]
  rfl

/-- The name is in the object of the current function, and all others stay as they were. -/
theorem Depicts.nameFunction (hk : k.Depicts fs s) (hs : s.Sound [])
    (h : s.nameFunction = .ok t) : k.nameFunction.Draws fs t := by
  have hst := Session.Preserves.nameFunction hs h
  have hinterned := hk.intern hs s.previous.lexeme
  have hlexeme : k.session.previous.lexeme = s.previous.lexeme := by
    rw [hk.session]
    rfl
  rw [Session.nameFunction] at h
  obtain ⟨heap, hmodify, rfl⟩ := Session.changeHeap_eq_ok h
  refine ⟨hk.session, ?_, hk.finished_of_preserves hst (List.prefix_refl _)⟩
  have hbegun := hinterned.begun
  have hother : s.functions.current.function ∉
      (s.functions.enclosing.map FunctionState.core).map (·.1) :=
    (List.nodup_cons.mp hs.nodup).1
  have hstring (n : StringHandle) :
      (s.intern s.previous.lexeme).2.heap.Agree heap (.string n) :=
    Heap.agree_modifyFunction hmodify (by rintro ⟨⟩)
  have hnamed : heap.strings.get? (s.intern s.previous.lexeme).1.index =
      some k.session.previous.lexeme :=
    Eq.trans (hstring _) ((hs.get?_intern _).trans (congrArg some hlexeme.symm))
  obtain ⟨session, holdings, finished⟩ := k
  cases hbegun with
  | cons hhead hrest =>
  obtain ⟨o, ho, hshows⟩ := hhead
  have hkept : heap.ShowsHoldings fs o.name s.chunk.constants _ :=
    hshows.of_agree (List.prefix_refl _) (fun n _ => hstring n) fun n _ => hstring n
  refine .cons ⟨_, (get?_modifyFunction hmodify _).trans ((if_pos rfl).trans (congrArg _ ho)),
    ?_, hkept.constants⟩ (begun_of_modify hmodify hrest (List.prefix_refl _) fun c hc heq => ?_)
  · exact .some hnamed
  · exact hother (List.mem_map.mpr ⟨c, hc, heq⟩)

/-- What is being compiled is not finished. -/
theorem Depicts.not_mem (hk : k.Depicts fs s) (hs : s.Sound []) :
    s.functions.current.function ∉ fs :=
  fun hmem => hs.apart _ (List.mem_cons_self ..) (hk.held _ hmem)

/-- Stored in its object, a function shows as what it comes to. -/
theorem Depicts.store (hk : k.Depicts fs s) (hs : s.Sound []) {heap : Heap}
    (hmodify : s.heap.modifyFunction s.functions.current.function (fun o =>
      { o with
        arity := s.functions.current.arity
        upvalueCount := s.functions.current.upvalues.length
        chunk := s.functions.current.chunk }) = .ok heap) :
    ∃ p ps, k.holdings = p :: ps ∧
      List.Forall₂ (heap.ShowsBegun (fs ++ [s.functions.current.function]))
        (s.functions.enclosing.map FunctionState.core) ps ∧
      List.Forall₂ (heap.ShowsFunction (fs ++ [s.functions.current.function]))
        (fs ++ [s.functions.current.function])
        (k.finished ++ [.of s.functions.current p]) := by
  have hst := Session.Preserves.store hs (List.mem_cons_self ..) hmodify
  have hfinished := hk.finished_of_preserves hst (List.prefix_append fs
    [s.functions.current.function])
  have hbegun := hk.begun
  have hother : s.functions.current.function ∉
      (s.functions.enclosing.map FunctionState.core).map (·.1) :=
    (List.nodup_cons.mp hs.nodup).1
  have hstring (n : StringHandle) : s.heap.Agree heap (.string n) :=
    Heap.agree_modifyFunction hmodify (by rintro ⟨⟩)
  obtain ⟨session, holdings, finished⟩ := k
  cases hbegun with
  | @cons _ p _ ps hhead hrest =>
  obtain ⟨o, ho, hshows⟩ := hhead
  refine ⟨p, ps, rfl, begun_of_modify hmodify hrest (List.prefix_append ..) fun c hc heq => ?_,
    List.rel_append hfinished (.cons ⟨_, (get?_modifyFunction hmodify _).trans
      ((if_pos rfl).trans (congrArg _ ho)), ?_, rfl, rfl, rfl, rfl⟩ .nil)⟩
  · exact hother (List.mem_map.mpr ⟨c, hc, heq⟩)
  · exact hshows.of_agree (List.prefix_append ..) (fun n _ => hstring n) fun n _ => hstring n

/-- The function that ended is finished last, and is a constant of the one around it. -/
theorem Depicts.endFunction (hk : k.Depicts fs s) (hs : s.Sound []) {constant : UInt8}
    {captures : List Capture} (h : s.endFunction = .ok ((constant, captures), t)) :
    ∃ k' fs', k.endFunction = some ((constant, captures), k') ∧ k'.Depicts fs' t := by
  have hst := Session.Preserves.endFunction hs h
  obtain ⟨st, parent, rest, heap, u, hfunctions, rfl, hmodify, rfl, hadd⟩ :=
    Session.endFunction_eq_ok h
  have hcurrent : s.functions.current = st := congrArg FunctionStack.current hfunctions
  have henclosing : s.functions.enclosing = parent :: rest :=
    congrArg FunctionStack.enclosing hfunctions
  obtain ⟨p, ps, hholdings, hbegun, hfinished⟩ := hk.store hs (hcurrent ▸ hmodify)
  rw [hcurrent] at hbegun hfinished
  rw [henclosing] at hbegun
  have hrelabeled : k.session.functions = ⟨st.relabel .blank, parent.relabel .blank ::
      rest.map (FunctionState.relabel .blank)⟩ := by
    rw [hk.session, Session.relabel, hfunctions]
    rfl
  have hpop : (k.pop (parent.relabel .blank) (rest.map (FunctionState.relabel .blank)) p ps).Draws
      (fs ++ [st.function]) { s with functions := ⟨parent, rest⟩, heap := heap } := by
    refine ⟨?_, hbegun, ?_⟩
    · rw [pop, hk.session]
      rfl
    · rw [pop, hrelabeled]
      exact hfinished
  have hplace : (fs ++ [st.function])[k.finished.length]? = some st.function := by
    rw [← hk.finished.length_eq]
    exact List.getElem?_concat_length
  have hnew : st.function ∉ fs := hcurrent ▸ hk.not_mem hs
  have hnodup : (fs ++ [st.function]).Nodup :=
    List.nodup_append.mpr ⟨hk.nodup, List.nodup_singleton _, fun f hf g hg heq =>
      hnew (List.mem_singleton.mp hg ▸ heq ▸ hf)⟩
  obtain ⟨k', hk', hdraws⟩ := hpop.addConstant (.function hplace) hadd
  refine ⟨k', fs ++ [st.function], ?_, hdraws, hnodup, fun f hf => ?_⟩
  · rw [endFunction_of_cons (congrArg _ hrelabeled) hholdings, hk', hrelabeled]
    rfl
  · rcases List.mem_append.mp hf with hold | hnew
    · exact hk.held_of_preserves hst f hold
    · obtain rfl := List.mem_singleton.mp hnew
      have hpushed : Value.function st.function ∈
          (parent.chunk.constants.push (.function st.function)).toList := by simp
      refine .root ?_
      rw [(Session.functions_heap_addConstant hadd).1]
      exact List.mem_append_left _ hpushed

end Sketch

/-! ### Actions and runs -/

section

open Sketch

variable {k : Sketch} {fs : List FunctionHandle} {s t : Session} {β : Type} {b : β}

/-- What a careful action does to a sound session is what it does to a sketch of it. -/
theorem Action.depicts {a : Action β} (ha : a.Careful s) (hk : k.Depicts fs s) (hs : s.Sound [])
    (h : a.apply s = .ok (b, t)) :
    ∃ k' fs', a.sketch k = some (b, k') ∧ k'.Depicts fs' t := by
  have hst := a.preserves hs h
  have hdepicts {k' : Sketch} (hdraws : k'.Draws fs t) : k'.Depicts fs t :=
    ⟨hdraws, hk.nodup, hk.held_of_preserves hst⟩
  by_cases hmakes : a.Makes
  · cases a with
    | loadNumber =>
        cases h
        have hnumber : k.session.previous.kind = .number := by
          rw [hk.session]
          exact ha
        exact ⟨_, fs, if_pos hnumber, hdepicts hk.toDraws.loadNumber⟩
    | loadString =>
        obtain ⟨u, hu, h⟩ := bind_eq_ok.mp h
        cases h
        obtain ⟨k', hk', hdraws⟩ := hk.loadString hs ha hu
        exact ⟨k', fs, hk', hdepicts hdraws⟩
    | nameConstant =>
        obtain ⟨k', hk', hdraws⟩ := hk.nameConstant hs h
        exact ⟨k', fs, hk', hdepicts hdraws⟩
    | beginFunction =>
        cases h
        exact ⟨_, fs, rfl, hdepicts (hk.beginFunction hs)⟩
    | nameFunction =>
        obtain ⟨u, hu, h⟩ := bind_eq_ok.mp h
        cases h
        exact ⟨_, fs, rfl, hdepicts (hk.nameFunction hs hu)⟩
    | endFunction => exact hk.endFunction hs h
    | _ => exact hmakes.elim
  · have hallocates : ¬ a.Allocates := by
      cases a <;> first | exact id | exact absurd trivial hmakes
    have happly : a.apply k.session = .ok (b, t.relabel .blank) := by
      rw [hk.session, a.apply_relabel .blank hmakes fun _ _ _ => rfl, h]
      rfl
    refine ⟨{ k with session := t.relabel .blank }, fs, ?_, hdepicts (hk.toDraws.of_cores
      (heap_of_not_allocates hallocates h) (cores_of_not_makes hmakes h))⟩
    rw [sketch_of_not_makes hmakes, happly]
    rfl

/-- A careful run goes on as sketched, and ends so. -/
theorem CompileM.depicts {α : Type} (m : CompileM α) {a : α} (hm : m.Careful s)
    (hk : k.Depicts fs s) (hs : s.Sound []) (h : m.run s = .ok (a, t)) :
    ∃ k' fs', m.sketch k = some (a, k') ∧ k'.Depicts fs' t := by
  induction m generalizing k fs s t with
  | done result =>
      cases result with
      | error fault => cases h
      | ok b =>
          cases h
          exact ⟨k, fs, rfl, hk⟩
  | ask q =>
      cases h
      refine ⟨k, fs, ?_, hk⟩
      rw [sketch, hk.session, q.answer_relabel]
  | act action => exact action.depicts hm hk hs h
  | chain first next ihFirst ihNext =>
      obtain ⟨⟨b, u⟩, hfirst, hnext⟩ := bind_eq_ok.mp ((run_bind s first next).symm.trans h)
      obtain ⟨k₁, fs₁, hk₁, hu⟩ := ihFirst hm.1 hk hs hfirst
      obtain ⟨k₂, fs₂, hk₂, ht⟩ :=
        ihNext b (hm.2 b u hfirst) hu (first.preserves hs hfirst).sound hnext
      refine ⟨k₂, fs₂, ?_, ht⟩
      rw [sketch, hk₁]
      exact hk₂
  | part phrase body ih => exact ih hm hk hs h

end

end LoxBytecode
