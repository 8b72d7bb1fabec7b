import LoxBytecode.Proofs.Compile.Careful
import LoxBytecode.Proofs.Compile.Lexemes
import LoxBytecode.Proofs.Scope.Levels

/-!
# Nothing Out of Range

No run of the compiler reaches a partial operation outside its domain or narrows a number that
does not fit, on whatever source (`compile_in_range`). That a run has no fault says so of the
operations that are checked; what the checks stand for is said here of every action on the way:
the text of a string has its quotes, a scope that ends was begun, a distance belongs inside the
code, a function that ends has one around it, the byte of a constant is its index or its loss is
reported. The search through the functions around is also written with levels for indices, as
`FunctionStack.resolveAt`, and indexes none that is not there.
-/

namespace LoxBytecode

open Heap

/-! ### The quotes of a string -/

/-- A text with a quote in front and one behind. -/
def Enclosed (text : String) : Prop :=
  ∃ body, text = String.ofList ('"' :: (body ++ ['"']))

/-- The text of a string token has its quotes. -/
def Token.Enclosed (t : Token) : Prop :=
  t.kind = .string → LoxBytecode.Enclosed t.lexeme

/-- The end of the source is no string, so nothing has to enclose it. -/
theorem Token.enclosed_eof (line : Nat) : (Token.eof line).Enclosed := by
  rintro ⟨⟩

/-- Every string that is scanned stands between two quotes. -/
theorem TokenStream.enclosed_of_mem_ofSource (source : String) :
    ∀ t ∈ (ofSource source).ahead, t.Enclosed := by
  refine forall_mem_ofSource (fun c cs line => ?_) source
  rw [Piece.token]
  split
  next kind hshape =>
    intro hkind
    obtain rfl : kind = .string := hkind
    obtain ⟨body, htext⟩ := Piece.text_of_string hshape
    exact ⟨body, congrArg String.ofList htext⟩
  next => rintro ⟨⟩

/-! ### The index of a constant -/

/-- The number that some bytes hold, lowest first. -/
def indexOf : List UInt8 → Nat
  | [] => 0
  | b :: bs => b.toNat + 256 * indexOf bs

/-- One byte or three hold the index of a constant. -/
theorem indexOf_loadOf {index : Nat} (h : index < Chunk.maxConstants) :
    indexOf (Chunk.loadOf index).2 = index := by
  rw [Chunk.maxConstants] at h
  rw [Chunk.loadOf]
  split
  next hshort =>
    rw [Chunk.maxShortConstant] at hshort
    simp [indexOf]
    omega
  next =>
    simp [indexOf, Nat.shiftRight_eq_div_pow]
    omega

/-- The byte of a constant is its index, or that it is not is reported. -/
theorem Session.toNat_of_addConstant {s t : Session} {v : Value} {b : UInt8}
    (h : s.addConstant v = .ok (b, t)) :
    b.toNat = s.chunk.constants.size ∨ t.recovering = true := by
  rw [addConstant] at h
  split at h
  next hshort =>
    obtain ⟨b', hb, h⟩ := bind_eq_ok.mp h
    cases h
    exact Or.inl (toNat_of_narrow hb)
  next =>
    cases h
    refine Or.inr ?_
    rw [fail, report]
    split <;> first | rfl | assumption

/-! ### Every source -/

/-- The tables of the functions being compiled: slot 0 is in its place, and every slot and every
index of a capture that can be answered fits one byte. -/
structure Session.InRange (s : Session) : Prop where
  slotZero : ∀ st ∈ s.functions.states, ∃ ls l, st.locals = ls ++ [l] ∧ l.name = "" ∧
    l.depth = some 0
  slots : ∀ st ∈ s.functions.states, ∀ name slot,
    st.resolveLocal name = .ok (some slot) → slot < st.locals.length ∧ slot < 256
  indices : ∀ st ∈ s.functions.states, ∀ c index, (st.addUpvalue c).1 = .ok index → index < 256

/-- An action is within the domains of the partial operations that it is made of, and loses
nothing of a number that it writes as bytes. -/
def Action.InRange {β : Type} (s : Session) : Action β → Prop
  | .loadString =>
    Enclosed s.previous.lexeme ∧ (s.chunk.isFull = false →
      indexOf (Chunk.loadOf s.chunk.constants.size).2 = s.chunk.constants.size)
  | .loadNumber =>
    s.chunk.isFull = false →
      indexOf (Chunk.loadOf s.chunk.constants.size).2 = s.chunk.constants.size
  | .nameConstant =>
    ∀ b t, s.nameConstant = .ok (b, t) → b.toNat = s.chunk.constants.size ∨ t.recovering = true
  | .patchJump offset => offset + 2 ≤ s.chunk.size
  | .endScope =>
    s.functions.current.scopeDepth ≠ 0 ∧ ∀ flags t, s.endScope = .ok (flags, t) →
      t.functions.current.locals.getLast? = s.functions.current.locals.getLast?
  | .findUpvalue =>
    FunctionStack.resolveAt s.previous.lexeme s.functions.level s.functions.levels =
      .ok (s.findUpvalue.1, s.findUpvalue.2.functions.levels)
  | .endFunction =>
    ∃ parent rest, s.functions.enclosing = parent :: rest ∧ ∀ r t, s.endFunction = .ok (r, t) →
      r.1.toNat = parent.chunk.constants.size ∨ t.recovering = true
  | _ => True

/-- What a session has to fit follows from its slots, its functions and their chunks. -/
theorem Session.inRange {s : Session} (hground : s.Grounded)
    (hfits : ∀ st ∈ s.functions.states, st.Fits) : s.InRange where
  slotZero st hst := by
    have hlast := hground st.lexical (List.mem_map_of_mem hst)
    rw [FunctionState.lexical, List.getLast?_map, Option.map_eq_some_iff] at hlast
    obtain ⟨l, hl, hident⟩ := hlast
    exact ⟨_, l, (List.dropLast_append_getLast? l hl).symm, congrArg Prod.fst hident,
      congrArg Prod.snd hident⟩
  slots st hst name slot hslot :=
    ⟨FunctionState.lt_of_resolveLocal hslot, FunctionStack.lt_of_resolveLocal (hfits st hst) hslot⟩
  indices st hst c index hindex := FunctionStack.lt_of_addUpvalue (hfits st hst) hindex

/-- Leaving a scope takes locals from the front only. -/
theorem FunctionState.getLast?_locals_endScope {st st' : FunctionState} {flags : List Bool}
    (h : st.endScope = .ok (flags, st')) (hne : st'.locals ≠ []) :
    st'.locals.getLast? = st.locals.getLast? := by
  rw [FunctionState.endScope] at h
  split at h <;> cases h
  obtain ⟨before, hbefore⟩ := List.dropWhile_suffix (l := st.locals) (isWithin _)
  have hlast := List.getLast?_append_of_ne_nil before hne
  rw [hbefore] at hlast
  exact hlast.symm

/-- An action that has no fault in a session with its tables in order is in range. -/
theorem Action.inRange {s : Session} {β : Type} {a : Action β} (hcareful : a.Careful s)
    (hground : s.Grounded) (hfits : ∀ st ∈ s.functions.states, st.Fits)
    (htokens : s.Throughout Token.Enclosed) (h : ∃ b t, a.apply s = .ok (b, t)) :
    a.InRange s := by
  have hload : s.chunk.isFull = false →
      indexOf (Chunk.loadOf s.chunk.constants.size).2 = s.chunk.constants.size :=
    fun hroom => indexOf_loadOf (by simpa [Chunk.isFull] using hroom)
  obtain ⟨b, t, h⟩ := h
  cases a with
  | advance | fail | failHere | resume | emit | beginScope | declare | markInitialized
  | beginFunction | nameFunction | countParameter => trivial
  | loadNumber => exact hload
  | loadString => exact ⟨htokens.previous hcareful, hload⟩
  | nameConstant =>
      exact fun b t hrun => Session.toNat_of_addConstant (s := (s.intern s.previous.lexeme).2) hrun
  | patchJump offset =>
      obtain ⟨u, hu, -⟩ := bind_eq_ok.mp h
      rw [Session.patchJump] at hu
      by_contra hlt
      rw [if_pos (Nat.lt_of_not_le hlt)] at hu
      cases hu
  | endScope =>
      obtain ⟨⟨flags, st⟩, hst, -⟩ := bind_eq_ok.mp h
      refine ⟨fun hzero => ?_, fun flags t hrun => ?_⟩
      · rw [FunctionState.endScope, hzero] at hst
        cases hst
      · obtain ⟨⟨flags', st'⟩, hst', hrun⟩ := bind_eq_ok.mp hrun
        cases hrun
        refine FunctionState.getLast?_locals_endScope hst' fun hempty => ?_
        have hlast := FunctionState.getLast?_endScope hst' hground.current
        rw [show st'.locals = [] from hempty] at hlast
        cases hlast
  | findUpvalue => exact FunctionStack.resolveAt_levels hfits _
  | endFunction =>
      obtain ⟨st, parent, rest, heap, v, hfunctions, -, -, -, -⟩ := Session.endFunction_eq_ok h
      refine ⟨parent, rest, congrArg FunctionStack.enclosing hfunctions, fun r t hrun => ?_⟩
      obtain ⟨st', parent', rest', heap', v', hfunctions', -, -, rfl, hadd⟩ :=
        Session.endFunction_eq_ok hrun
      cases hfunctions.symm.trans hfunctions'
      exact Session.toNat_of_addConstant hadd

open CompileM in
/-- Compiling any source ends without a fault. In every session on the way the tables are in
order, and every action that is carried out is in range; and what is narrowed to a byte is what
the byte holds. -/
theorem compile_in_range (source : String) {h : Heap} (hw : h.Wf) (host : List Value) :
    (∃ c, compile source h host = .ok c) ∧
      (∀ u, (script (Session.budget (TokenStream.ofSource source))).Visits
        (Session.start (TokenStream.ofSource source) h host) u → u.InRange) ∧
      (∀ {β : Type} (a : Action β) (u : Session),
        Performs a u (script (Session.budget (TokenStream.ofSource source)))
          (Session.start (TokenStream.ofSource source) h host) → a.InRange u) ∧
      ∀ (n : Nat) (b : UInt8), narrow n = .ok b → b.toNat = n := by
  obtain ⟨c, hc⟩ := exists_compile source hw host
  obtain ⟨⟨⟨⟩, s⟩, hrun, -⟩ := bind_eq_ok.mp hc
  have hground : (Session.start (TokenStream.ofSource source) h host).Grounded :=
    List.forall_mem_singleton.mpr rfl
  have hcareful := ((respects_script (Session.budget (TokenStream.ofSource source))).start
    hground).1
  have hfits (u : Session) (hu : (script (Session.budget (TokenStream.ofSource source))).Visits
      (Session.start (TokenStream.ofSource source) h host) u) :
      ∀ st ∈ u.functions.states, st.Fits := by
    refine visits_keeps (P := fun u => ∀ st ∈ u.functions.states, st.Fits)
      (fun a _ _ _ hs ha => a.fits hs ha) ?_ hu
    exact List.forall_mem_singleton.mpr ⟨Nat.le_of_ble_eq_true rfl, Nat.zero_le _, .nil⟩
  have htokens (u : Session) (hu : (script (Session.budget (TokenStream.ofSource source))).Visits
      (Session.start (TokenStream.ofSource source) h host) u) : u.Throughout Token.Enclosed :=
    visits_keeps (fun a _ _ _ hs ha => a.throughout Token.enclosed_eof hs ha)
      ⟨Token.enclosed_eof 1, Token.enclosed_eof 1, TokenStream.enclosed_of_mem_ofSource source⟩ hu
  refine ⟨⟨c, hc⟩, fun u hu => ?_, fun a u hperforms => ?_, fun n b => toNat_of_narrow⟩
  · exact Session.inRange (hcareful.grounded_of_visits hground hu) (hfits u hu)
  · have hu := hperforms.visits
    exact Action.inRange (hperforms.careful hcareful) (hcareful.grounded_of_visits hground hu)
      (hfits u hu) (htokens u hu) (hperforms.exists_apply hrun)

open CompileM in
/-- A loop that the source breaks off in. -/
theorem compile_in_range_unfinished :
    (∃ c, compile "for (var a" (ofConfig ⟨true, 0, 2⟩) [] = .ok c) ∧
      (∀ u, (script (Session.budget (TokenStream.ofSource "for (var a"))).Visits
        (Session.start (TokenStream.ofSource "for (var a") (ofConfig ⟨true, 0, 2⟩) []) u →
          u.InRange) ∧
      (∀ {β : Type} (a : Action β) (u : Session),
        Performs a u (script (Session.budget (TokenStream.ofSource "for (var a")))
          (Session.start (TokenStream.ofSource "for (var a") (ofConfig ⟨true, 0, 2⟩) []) →
            a.InRange u) ∧
      ∀ (n : Nat) (b : UInt8), narrow n = .ok b → b.toNat = n :=
  compile_in_range "for (var a" (Reachable.ofConfig ⟨true, 0, 2⟩).wf []

end LoxBytecode
