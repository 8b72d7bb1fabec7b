import LoxBytecode.Proofs.Session.Stages

/-!
# A Compilation Does What Following It Says

A session has `Reached` a stage when its tokens, the code of its functions and their scopes are
those of the stage. From there a run goes where following it goes (`CompileM.tracks`): it reports
nothing and reaches the stage at the end, or the first thing that it reports is the problem at
which following stops. What comes after a first diagnostic is not followed.
-/

namespace LoxBytecode

namespace Session

variable {s t u : Session} {A : Stage}

/-! ### Diagnostics are added at the end -/

/-- Diagnostics are added behind those that are there. -/
def Appends (s t : Session) : Prop :=
  s.diagnostics.toList <+: t.diagnostics.toList

/-- Nothing is added where nothing happens. -/
theorem Appends.refl (s : Session) : Appends s s :=
  List.prefix_refl _

/-- What is added twice is added. -/
theorem Appends.trans (h₁ : Appends s t) (h₂ : Appends t u) : Appends s u :=
  List.IsPrefix.trans h₁ h₂

/-- Nothing is added where the diagnostics stay. -/
theorem Appends.of_eq (h : t.diagnostics = s.diagnostics) : Appends s t :=
  ⟨[], by rw [List.append_nil, h]⟩

/-- Reporting adds at most one diagnostic at the end. -/
theorem appends_report (s : Session) (tok : Token) (message : String) :
    Appends s (s.report tok message) := by
  simp only [report]
  split
  · exact .refl _
  · simp [Appends]

/-- Reading adds the lexical errors at the end. -/
theorem appends_readFrom (s : Session) (ts : List Token) : Appends s (s.readFrom ts) := by
  induction ts generalizing s with
  | nil => exact .of_eq rfl
  | cons tok ts ih =>
      rw [readFrom]
      split
      · exact (appends_report s tok tok.lexeme).trans (ih _)
      · exact .of_eq rfl

/-- Loading a value adds at most one diagnostic at the end. -/
theorem appends_load (s : Session) (v : Value) : Appends s (s.load v) := by
  rw [load]
  split
  · exact appends_report ..
  · exact .of_eq rfl

/-- Adding a constant adds at most one diagnostic at the end. -/
theorem appends_addConstant {v : Value} {index : UInt8} (h : s.addConstant v = .ok (index, t)) :
    Appends s t := by
  rcases addConstant_eq_ok h with ⟨-, -, rfl⟩ | ⟨-, rfl⟩
  · exact .of_eq rfl
  · exact appends_report (s.modifyChunk _) _ _

end Session

/-- Every action adds diagnostics at the end. -/
theorem Action.appends {β : Type} (a : Action β) {s t : Session} {b : β}
    (h : a.apply s = .ok (b, t)) : s.Appends t := by
  cases a with
  | advance =>
      cases h
      exact Session.appends_readFrom { s with previous := s.current } s.upcoming.ahead
  | fail | failHere =>
      cases h
      exact Session.appends_report ..
  | resume | emit | beginScope | markInitialized | findUpvalue | beginFunction
  | countParameter =>
      cases h
      exact .of_eq rfl
  | patchJump offset =>
      obtain ⟨u, hu, h⟩ := bind_eq_ok.mp h
      cases h
      rcases Session.patchJump_eq_ok hu with ⟨c, -, -, -, rfl⟩ | ⟨-, rfl⟩
      · exact .of_eq rfl
      · exact Session.appends_report ..
  | loadNumber =>
      cases h
      rw [Session.loadNumber]
      split
      · exact Session.appends_load ..
      · exact Session.appends_report ..
  | loadString =>
      obtain ⟨u, hu, h⟩ := bind_eq_ok.mp h
      cases h
      obtain ⟨text, -, hload⟩ := bind_eq_ok.mp hu
      cases hload
      exact Session.appends_load (s.intern text).2 _
  | nameConstant => exact Session.appends_addConstant (s := (s.intern s.previous.lexeme).2) h
  | endScope =>
      obtain ⟨⟨flags, st⟩, -, h⟩ := bind_eq_ok.mp h
      cases h
      exact .of_eq rfl
  | declare =>
      cases h
      rw [Session.declare]
      split
      · exact .of_eq rfl
      · exact Session.appends_report ..
  | nameFunction =>
      obtain ⟨u, hu, h⟩ := bind_eq_ok.mp h
      cases h
      rw [Session.nameFunction] at hu
      obtain ⟨heap, -, rfl⟩ := Session.changeHeap_eq_ok hu
      exact .of_eq rfl
  | endFunction =>
      obtain ⟨st, parent, rest, heap, u, -, -, -, rfl, hadd⟩ := Session.endFunction_eq_ok h
      exact Session.appends_addConstant
        (s := { s with functions := ⟨parent, rest⟩, heap := heap }) hadd

/-- Every compilation only adds diagnostics at the end. -/
theorem CompileM.appends {α : Type} (m : CompileM α) {s t : Session} {a : α}
    (h : m.run s = .ok (a, t)) : s.Appends t :=
  m.run_keeps (fun a _ _ _ hs ha => hs.trans (a.appends ha)) (.refl s) h

namespace Session

variable {s t u : Session} {A : Stage} {β : Type}

/-! ### Reaching a stage -/

/-- The tokens from the current one on begin with some that are no errors. There are none left
when the end of the source is passed. -/
def Expects (s : Session) : List Token → Prop
  | [] => s.current = Token.eof s.upcoming.endLine ∧ s.previous = s.current
  | t :: ts =>
    s.current = t ∧ (t.kind = .eof → t = Token.eof s.upcoming.endLine) ∧
      ts <+: (if t.kind = .eof then [] else s.upcoming.toList) ∧ ∀ u ∈ ts, u.kind ≠ .error

/-- A session has reached a stage. -/
structure Reached (s : Session) (A : Stage) : Prop where
  orderly : s.Orderly
  alert : s.recovering = false
  tokens : s.Expects A.tokens
  previous : s.previous = A.previous
  functions : Matches s.heap s.functions.states (A.nest.current :: A.nest.around)
    (A.code :: A.outer)

/-- The first new diagnostic is a problem at a token. -/
def Reports (s t : Session) (p : Problem) (tok : Token) : Prop :=
  ∃ ds, t.diagnostics.toList =
    s.diagnostics.toList ++ ⟨tok.line, Location.ofToken tok, p.message⟩ :: ds

/-- A session went on as following it says. -/
inductive Tracks (s : Session) (b : β) (t : Session) : Except Stop (β × Stage) → Prop
  | ok {A : Stage} : t.Reached A → t.diagnostics = s.diagnostics → Tracks s b t (.ok (b, A))
  | unknown : Tracks s b t (.error .unknown)
  | problem {p : Problem} {tok : Token} {rest : List Token} : Reports s t p tok →
      Tracks s b t (.error (.problem p (tok :: rest)))

/-- What a session expects depends on nothing but its tokens. -/
theorem Expects.of_sameTokens {ts : List Token} (h : s.Expects ts) (hsame : SameTokens s t) :
    t.Expects ts := by
  cases ts with
  | nil =>
      rw [Expects, hsame.current, hsame.previous, hsame.upcoming]
      exact h
  | cons =>
      rw [Expects, hsame.current, hsame.upcoming]
      exact h

/-- The first of the tokens expected is of the current kind. -/
theorem Expects.kindOf {ts : List Token} (h : s.Expects ts) : kindOf ts = s.current.kind := by
  cases ts with
  | nil =>
      rw [h.1]
      rfl
  | cons => rw [h.1, kindOf_cons]

/-- A session where nothing but the functions changed reaches the stage with their code and
scopes. -/
theorem Reached.update (hs : s.Reached A) (ht : t.Orderly) (hsame : SameTokens s t)
    (halert : t.recovering = s.recovering) {code : List UInt8} {outer : List (List UInt8)}
    {nest : Nest}
    (hfunctions : Matches t.heap t.functions.states (nest.current :: nest.around)
      (code :: outer)) : t.Reached { A with code := code, outer := outer, nest := nest } :=
  ⟨ht, halert.trans hs.alert, hs.tokens.of_sameTokens hsame, hsame.previous.trans hs.previous,
    hfunctions⟩

/-- The innermost function has the code and the scope that the stage says. -/
theorem Reached.current (hs : s.Reached A) : Models s.heap s.functions.current A.nest.current
    A.code (capturesOf A.nest.around) := by
  cases hs.functions with
  | cons hcurrent => exact hcurrent

/-- The functions around have the code and the scopes that the stage says. -/
theorem Reached.enclosing (hs : s.Reached A) :
    Matches s.heap s.functions.enclosing A.nest.around A.outer := by
  cases hs.functions with
  | cons _ henclosing => exact henclosing

/-- A session where nothing but the current function changed reaches the stage with its code and
scope. -/
theorem Reached.modify (hs : s.Reached A) {f : FunctionState → FunctionState}
    (ht : (s.modifyFunction f).Orderly) {code : List UInt8} {d : Draft}
    (hmodels : Models s.heap (f s.functions.current) d code (capturesOf A.nest.around)) :
    (s.modifyFunction f).Reached
      { A with code := code, nest := { A.nest with current := d } } :=
  hs.update ht ⟨rfl, rfl, rfl⟩ rfl (.cons hmodels hs.enclosing)

/-! ### Problems -/

/-- Outside of recovery a problem that is reported is the first new diagnostic. -/
theorem reports_report (hs : s.recovering = false) (tok : Token) (p : Problem) :
    Reports s (s.report tok p.message) p tok := by
  refine ⟨[], ?_⟩
  simp [report, hs]

/-- Before a first report the diagnostics may stay as they are. -/
theorem Reports.of_eq (h : Reports u t p tok) (heq : u.diagnostics = s.diagnostics) :
    Reports s t p tok := by
  rwa [Reports, heq] at h

/-- What comes behind a first report does not change it. -/
theorem Reports.append (h : Reports s u p tok) (hut : Appends u t) : Reports s t p tok := by
  obtain ⟨ds, hds⟩ := h
  obtain ⟨ds', hds'⟩ := hut
  refine ⟨ds ++ ds', ?_⟩
  rw [← hds', hds, List.append_assoc, List.cons_append]

/-- Tracking only depends on the diagnostics of the session at the start. -/
theorem Tracks.of_eq {b : β} {r : Except Stop (β × Stage)} (h : Tracks u b t r)
    (heq : u.diagnostics = s.diagnostics) : Tracks s b t r := by
  cases h with
  | ok ht hdiagnostics => exact .ok ht (hdiagnostics.trans heq)
  | unknown => exact .unknown
  | problem hreports => exact .problem (hreports.of_eq heq)

/-- Reporting a problem at the token just passed stops. -/
theorem Reached.fail (hs : s.Reached A) (hprevious : u.previous = s.previous)
    (hrecovering : u.recovering = s.recovering) (hdiagnostics : u.diagnostics = s.diagnostics)
    (p : Problem) (b : β) : Tracks s b (u.fail p) (A.fail p) := by
  have hreports := reports_report (hrecovering.trans hs.alert) u.previous p
  rw [hprevious, hs.previous] at hreports
  refine .problem ?_
  rw [Session.fail, hprevious, hs.previous]
  exact hreports.of_eq hdiagnostics

/-- Reporting a problem at the current token stops. -/
theorem Reached.failHere (hs : s.Reached A) (p : Problem) (b : β) :
    Tracks s b (s.failHere p) (A.failHere p) := by
  have hreports := reports_report hs.alert s.current p
  obtain ⟨tokens, previous, code, outer, nest⟩ := A
  have htokens := hs.tokens
  have hprevious := hs.previous
  rw [Stage.failHere]
  cases tokens with
  | nil =>
      rw [← htokens.2, hprevious] at hreports
      exact .problem (by rwa [Session.failHere, ← htokens.2, hprevious])
  | cons tok ts =>
      rw [htokens.1] at hreports
      exact .problem (by rwa [Session.failHere, htokens.1])

/-! ### Tokens -/

/-- Behind the last token comes the end of the source. -/
theorem advance_eq_of_nil (h : s.upcoming.ahead = []) :
    s.advance = { s with
      previous := s.current
      current := Token.eof s.upcoming.endLine
      upcoming := ⟨[], s.upcoming.endLine⟩ } := by
  rw [advance, h]
  rfl

/-- A token ahead that is no error becomes the current one. -/
theorem advance_eq_of_cons {tok : Token} {ts : List Token} (h : s.upcoming.ahead = tok :: ts)
    (htok : tok.kind ≠ .error) :
    s.advance = { s with
      previous := s.current, current := tok, upcoming := ⟨ts, s.upcoming.endLine⟩ } := by
  rw [advance, h, readFrom, if_neg htok]

/-- Behind the end of the source there is nothing. -/
theorem Reached.advance_end (hs : s.Reached A)
    (heof : s.current = Token.eof s.upcoming.endLine) :
    Tracks s () s.advance (.ok ((), { A with previous := s.current, tokens := [] })) := by
  have horderly : s.advance.Orderly := Action.advance.orderly hs.orderly rfl
  have hnil : s.upcoming.ahead = [] := hs.orderly.onTrack.atEnd (heof ▸ rfl)
  rw [advance_eq_of_nil hnil] at horderly ⊢
  exact .ok ⟨horderly, hs.alert, ⟨rfl, heof⟩, rfl, hs.functions⟩ rfl

/-- Moving on tracks the stage. -/
theorem Reached.advance (hs : s.Reached A) :
    Tracks s () s.advance (A.advance >>= fun A => .ok ((), A)) := by
  obtain ⟨tokens, previous, code, outer, nest⟩ := A
  have htokens := hs.tokens
  rcases tokens with - | ⟨tok, - | ⟨tok', ts⟩⟩
  · obtain ⟨heof, hprevious⟩ := htokens
    have hend := hs.advance_end heof
    rw [← hprevious, hs.previous] at hend
    exact hend
  · obtain ⟨rfl, heof, -, -⟩ := htokens
    simp only [Stage.advance]
    split
    next hkind => exact hs.advance_end (heof hkind)
    next => exact .unknown
  · obtain ⟨rfl, heof, hgrown, hkinds⟩ := htokens
    have hne : s.current.kind ≠ .eof := by
      intro hkind
      rw [if_pos hkind] at hgrown
      exact absurd (List.prefix_nil.mp hgrown) (List.cons_ne_nil _ _)
    rw [if_neg hne] at hgrown
    obtain ⟨hkind', hrest⟩ := List.forall_mem_cons.mp hkinds
    have horderly : s.advance.Orderly := Action.advance.orderly hs.orderly rfl
    cases hahead : s.upcoming.ahead with
    | nil =>
        rw [TokenStream.toList, hahead, List.nil_append, List.cons_prefix_cons] at hgrown
        obtain ⟨rfl, hgrown⟩ := hgrown
        rw [advance_eq_of_nil hahead] at horderly ⊢
        refine .ok ⟨horderly, hs.alert, ⟨rfl, fun _ => rfl, hgrown, hrest⟩, rfl,
          hs.functions⟩ rfl
    | cons tok ts' =>
        rw [TokenStream.toList, hahead, List.cons_append, List.cons_prefix_cons] at hgrown
        obtain ⟨rfl, hgrown⟩ := hgrown
        have hne' : tok'.kind ≠ .eof :=
          hs.orderly.onTrack.ahead tok' (hahead ▸ List.mem_cons_self ..)
        rw [advance_eq_of_cons hahead hkind'] at horderly ⊢
        refine .ok ⟨horderly, hs.alert, ⟨rfl, fun h => absurd h hne', ?_, hrest⟩, rfl,
          hs.functions⟩ rfl
        rwa [if_neg hne']

/-! ### Constants -/

/-- An operation that keeps the objects of the constants. -/
theorem Reached.matches_of_preserves (hs : s.Reached A) (hst : Preserves [] s t) :
    Matches t.heap s.functions.states (A.nest.current :: A.nest.around) (A.code :: A.outer) := by
  refine hs.functions.of_agree fun st hst' v hv => hst.agree v (.root ?_)
  exact List.mem_flatMap.mpr ⟨st.core, List.mem_map_of_mem hst', hv⟩

/-- Interning a text keeps the stage that is reached. -/
theorem Reached.intern (hs : s.Reached A) (text : String) : (s.intern text).2.Reached A := by
  have hpreserves := Preserves.intern hs.orderly.sound text
  have hsame : SameTokens s (s.intern text).2 := ⟨rfl, rfl, rfl⟩
  exact hs.update ⟨hpreserves.sound, hs.orderly.linked, hsame.onTrack hs.orderly.onTrack⟩ hsame
    rfl (hs.matches_of_preserves hpreserves)

/-- The stage knows as many constants as there are in the pool. -/
theorem Reached.length_constants (hs : s.Reached A) :
    A.nest.current.constants.length = s.chunk.constants.size :=
  hs.current.length_constants

/-- Adding a constant tracks the stage, which knows what the value denotes. -/
theorem Reached.addConstant (hs : s.Reached A) {v : Value} {c : Constant}
    (hv : s.heap.Denotes v c) {index : UInt8} (h : s.addConstant v = .ok (index, t))
    (ht : t.Orderly) : Tracks s index t (A.short c) := by
  rw [Stage.short, hs.length_constants]
  rcases addConstant_eq_ok h with ⟨hfits, rfl, rfl⟩ | ⟨hfull, rfl⟩
  · rw [if_pos hfits]
    exact .ok (hs.modify ht (hs.current.addConstant hv)) rfl
  · rw [if_neg (Nat.not_le.mpr hfull)]
    exact hs.fail (u := s.modifyChunk _) rfl rfl rfl _ _

/-- Loading a value tracks the stage. -/
theorem Reached.load (hs : s.Reached A) {v : Value} {c : Constant}
    (hv : s.heap.Denotes v c) (ht : (s.load v).Orderly) :
    Tracks s () (s.load v) (A.load c >>= fun A => .ok ((), A)) := by
  simp only [Stage.load, hs.length_constants]
  rw [Session.load] at ht ⊢
  by_cases hfull : s.chunk.isFull
  · have hsize : Chunk.maxConstants ≤ s.chunk.constants.size :=
      of_decide_eq_true hfull
    rw [if_pos hfull, if_pos hsize]
    exact hs.fail rfl rfl rfl _ _
  · have hsize : ¬ Chunk.maxConstants ≤ s.chunk.constants.size :=
      fun hle => hfull (decide_eq_true hle)
    rw [if_neg hfull] at ht ⊢
    rw [if_neg hsize]
    have hmodels := hs.current.addConstant hv
    refine .ok (hs.modify ht { hmodels with code := ?_, constants := ?_ }) rfl
    · simp only [Chunk.code_writeLoad, Array.toList_append, hs.current.code]
      rfl
    · simp only [Chunk.constants_writeLoad]
      exact hmodels.constants

/-- Loading a number tracks the stage. -/
theorem Reached.loadNumber (hs : s.Reached A) (ht : s.loadNumber.Orderly) :
    Tracks s () s.loadNumber (Action.loadNumber.applyAt A) := by
  simp only [Action.applyAt, ← hs.previous]
  rw [Session.loadNumber] at ht ⊢
  cases htext : Number.ofText? s.previous.lexeme with
  | some x =>
      simp only [htext] at ht
      exact hs.load (.plain rfl) ht
  | none => exact hs.fail rfl rfl rfl _ _

/-- Loading a string tracks the stage. -/
theorem Reached.loadString (hs : s.Reached A) (h : s.loadString = .ok t) (ht : t.Orderly) :
    Tracks s () t (Action.loadString.applyAt A) := by
  simp only [Action.applyAt, ← hs.previous]
  obtain ⟨text, htext, hload⟩ := bind_eq_ok.mp h
  cases hload
  rw [htext]
  have hget := hs.orderly.sound.get?_intern text
  exact (hs.intern text).load (.text hget) ht |>.of_eq rfl

/-- Adding a name to the constants tracks the stage. -/
theorem Reached.nameConstant (hs : s.Reached A) {index : UInt8}
    (h : s.nameConstant = .ok (index, t)) (ht : t.Orderly) :
    Tracks s index t (Action.nameConstant.applyAt A) := by
  rw [Action.applyAt, ← hs.previous]
  have hget := hs.orderly.sound.get?_intern s.previous.lexeme
  exact (hs.intern s.previous.lexeme).addConstant (.text hget) h ht |>.of_eq rfl

/-! ### Code -/

/-- Emitting an instruction tracks the stage. -/
theorem Reached.emit (hs : s.Reached A) (op : Opcode) (operands : List UInt8)
    (ht : (s.emit op operands).Orderly) :
    Tracks s () (s.emit op operands) (.ok ((), A.write (op.toByte :: operands))) := by
  refine .ok (hs.modify (f := fun st =>
    { st with chunk := st.chunk.writeInstruction op operands s.previous.line }) ht
      { hs.current with code := ?_, constants := ?_ }) rfl
  · simp [hs.current.code]
  · simp only [Chunk.constants_writeInstruction]
    exact hs.current.constants

/-- Patching a jump tracks the stage. -/
theorem Reached.patchJump (hs : s.Reached A) {offset : Nat} (h : s.patchJump offset = .ok t)
    (ht : t.Orderly) : Tracks s () t (Action.applyAt A (.patchJump offset)) := by
  have hsize : A.code.length = s.chunk.size := hs.current.length_code
  simp only [Action.applyAt, Stage.patchJump, hsize]
  rcases patchJump_eq_ok h with ⟨c, hpatch, hoffset, hdistance, rfl⟩ | ⟨hdistance, rfl⟩
  · rw [if_neg (Nat.not_lt.mpr hoffset), if_pos hdistance]
    refine .ok (hs.modify ht { hs.current with code := ?_, constants := ?_ }) rfl
    · rw [Chunk.code_patch16 hpatch, show s.chunk.code.toList = A.code from hs.current.code]
    · simp only [Chunk.constants_patch16 hpatch]
      exact hs.current.constants
  · have hoffset : ¬ s.chunk.size < offset + 2 := by omega
    rw [if_neg hoffset, if_neg (Nat.not_le.mpr hdistance)]
    exact hs.fail rfl rfl rfl _ _

/-! ### Scopes -/

/-- A change of the scope alone tracks a stage where the scope changes alike. -/
theorem Reached.modifyScope (hs : s.Reached A) {f : FunctionState → FunctionState}
    (ht : (s.modifyFunction f).Orderly) {g : Scope → Scope}
    (hscope : (f s.functions.current).scope = g s.functions.current.scope)
    (hrest : f s.functions.current = { s.functions.current with
      locals := (f s.functions.current).locals
      scopeDepth := (f s.functions.current).scopeDepth }) :
    (s.modifyFunction f).Reached (A.modifyScope g) := by
  refine hs.modify ht ?_
  rw [hs.current.scope] at hscope
  rw [hrest] at hscope ⊢
  exact { hs.current with scope := hscope }

/-- Ending a scope tracks the stage. -/
theorem Reached.endScope (hs : s.Reached A) {flags : List Bool}
    (h : s.endScope = .ok (flags, t)) (ht : t.Orderly) :
    Tracks s flags t A.endScope := by
  obtain ⟨⟨flags', st⟩, hst, h⟩ := bind_eq_ok.mp h
  cases h
  rw [FunctionState.endScope] at hst
  rw [Stage.endScope, ← hs.current.scope]
  cases hdepth : s.functions.current.scopeDepth with
  | zero =>
      rw [hdepth] at hst
      cases hst
  | succ depth =>
      rw [hdepth] at hst
      cases hst
      have hscope : s.functions.current.scope.depth = depth + 1 := hdepth
      rw [if_neg (by rw [hscope]; exact Nat.succ_ne_zero _), Scope.owned, hscope]
      refine .ok (hs.modifyScope ht ?_ rfl) rfl
      rw [Scope.leave, hscope]
      rfl

/-- Declaring a variable tracks the stage. -/
theorem Reached.declare (hs : s.Reached A) (ht : s.declare.Orderly) :
    Tracks s () s.declare (Action.declare.applyAt A) := by
  simp only [Action.applyAt, Stage.declare, ← hs.previous, ← hs.current.locals,
    ← hs.current.depth]
  rw [Session.declare, FunctionState.declareLocal, FunctionState.addLocal] at ht ⊢
  by_cases hused : (s.functions.current.locals.takeWhile fun l =>
      !l.depth.any (· < s.functions.current.scopeDepth)).any (·.name == s.previous.lexeme)
  · rw [if_pos hused, if_pos hused]
    exact hs.fail rfl rfl rfl _ _
  · rw [if_neg hused] at ht ⊢
    rw [if_neg hused]
    by_cases hroom : s.functions.current.locals.length < maxSlots
    · rw [if_pos hroom] at ht ⊢
      rw [if_pos hroom]
      exact .ok (hs.modifyScope ht rfl rfl) rfl
    · rw [if_neg hroom, if_neg hroom]
      exact hs.fail rfl rfl rfl _ _

/-- Resolving a name in the functions around tracks the stage. -/
theorem Reached.findUpvalue (hs : s.Reached A) (ht : s.findUpvalue.2.Orderly) :
    Tracks s s.findUpvalue.1 s.findUpvalue.2 (Action.findUpvalue.applyAt A) := by
  have hresolve := hs.functions.resolve s.previous.lexeme
  have hfound : s.findUpvalue.1 = A.findUpvalue.1 := by
    rw [Stage.findUpvalue, ← hs.previous]
    exact hresolve.found
  rw [Action.applyAt, hfound]
  refine .ok (hs.update ht ⟨rfl, rfl, rfl⟩ rfl ?_) rfl
  rw [← hs.previous]
  exact hresolve.states

/-! ### Functions -/

/-- Beginning a function tracks the stage. -/
theorem Reached.beginFunction (hs : s.Reached A) (ht : s.beginFunction.Orderly) :
    Tracks s () s.beginFunction (.ok ((), A.beginFunction)) := by
  have hmatches := hs.matches_of_preserves (Preserves.beginFunction hs.orderly.sound)
  refine .ok (hs.update ht ⟨rfl, rfl, rfl⟩ rfl (.cons ?_ hmatches)) rfl
  exact ⟨rfl, rfl, rfl, rfl, .nil, rfl, by rintro v ⟨⟩⟩

/-- Naming a function is nothing that the stage can see. -/
theorem Reached.nameFunction (hs : s.Reached A) (h : s.nameFunction = .ok t) (ht : t.Orderly) :
    Tracks s () t (.ok ((), A)) := by
  have hmatches := hs.matches_of_preserves (Preserves.nameFunction hs.orderly.sound h)
  rw [Session.nameFunction] at h
  obtain ⟨heap, -, rfl⟩ := changeHeap_eq_ok h
  exact .ok (hs.update ht ⟨rfl, rfl, rfl⟩ rfl hmatches) rfl

/-- Ending a function tracks the stage. -/
theorem Reached.endFunction (hs : s.Reached A) {constant : UInt8} {captures : List Capture}
    (h : s.endFunction = .ok ((constant, captures), t)) (ht : t.Orderly) :
    Tracks s (constant, captures) t A.endFunction := by
  have hmatches := hs.matches_of_preserves (Preserves.endFunction hs.orderly.sound h)
  have hupvalues := hs.current.upvalues
  obtain ⟨st, parent, rest, heap, u, hfunctions, rfl, hmodify, rfl, hadd⟩ := endFunction_eq_ok h
  obtain ⟨tokens, previous, code, outer, current, around⟩ := A
  rw [FunctionStack.states, hfunctions] at hmatches
  rw [hfunctions] at hupvalues
  cases hmatches with
  | cons _ houter =>
  cases houter with
  | @cons _ d code _ ds codes hparent hrest =>
  have hpool : d.constants.length = parent.chunk.constants.size := hparent.length_constants
  have hanswer : st.upvalues = current.captures.map (captureOf d.captures) := hupvalues
  simp only [Stage.endFunction, Stage.short, hpool, hanswer]
  rcases addConstant_eq_ok hadd with ⟨hfits, rfl, rfl⟩ | ⟨hfull, rfl⟩
  · rw [if_pos (show parent.chunk.constants.size ≤ Chunk.maxShortConstant from hfits)]
    exact .ok (hs.update ht ⟨rfl, rfl, rfl⟩ rfl (.cons (hparent.addConstant .function) hrest)) rfl
  · have hfull : ¬ parent.chunk.constants.size ≤ Chunk.maxShortConstant :=
      Nat.not_le.mpr hfull
    rw [if_neg hfull]
    exact hs.fail (u := Session.modifyChunk (fun c => (c.addConstant (.function st.function)).2)
      { s with functions := ⟨parent, rest⟩, heap := heap }) rfl rfl rfl _ _

/-! ### Queries and actions -/

/-- Queries have the same answer in the session and at the stage. -/
theorem Reached.answer (hs : s.Reached A) (q : Query β) : q.answer s = q.answerAt A := by
  cases q with
  | currentKind => exact hs.tokens.kindOf.symm
  | previousKind => exact congrArg Token.kind hs.previous
  | recovering => exact hs.alert
  | codeSize => exact hs.current.length_code.symm
  | functionKind => exact hs.current.kind
  | arity => exact hs.current.arity
  | atTopScope => exact congrArg (· == 0) hs.current.depth
  | findLocal =>
      show s.functions.current.resolveLocal s.previous.lexeme = A.findLocal
      rw [FunctionState.resolveLocal, hs.current.locals, hs.previous]
      cases hfound : FunctionState.findLocal? A.previous.lexeme A.nest.current.scope.locals with
      | none => rw [Stage.findLocal, hfound]
      | some found => rw [Stage.findLocal, hfound]

end Session

open Session in
/-- Every action does what it does at a stage. -/
theorem Action.tracks {β : Type} (a : Action β) {s t : Session} {A : Stage} {b : β}
    (hs : s.Reached A) (h : a.apply s = .ok (b, t)) : s.Tracks b t (a.applyAt A) := by
  have ht := a.orderly hs.orderly h
  cases a with
  | advance =>
      cases h
      exact hs.advance
  | fail problem =>
      cases h
      exact hs.fail rfl rfl rfl _ _
  | failHere problem =>
      cases h
      exact hs.failHere problem ()
  | resume =>
      cases h
      exact .ok (hs.update ht ⟨rfl, rfl, rfl⟩ hs.alert.symm hs.functions) rfl
  | emit op operands =>
      cases h
      exact hs.emit op operands ht
  | patchJump offset =>
      obtain ⟨u, hu, h⟩ := bind_eq_ok.mp h
      cases h
      exact hs.patchJump hu ht
  | loadNumber =>
      cases h
      exact hs.loadNumber ht
  | loadString =>
      obtain ⟨u, hu, h⟩ := bind_eq_ok.mp h
      cases h
      exact hs.loadString hu ht
  | nameConstant => exact hs.nameConstant h ht
  | beginScope =>
      cases h
      exact .ok (hs.modifyScope ht rfl rfl) rfl
  | endScope => exact hs.endScope h ht
  | declare =>
      cases h
      exact hs.declare ht
  | markInitialized =>
      cases h
      exact .ok (hs.modifyScope ht (FunctionState.scope_markInitialized _)
        (FunctionState.markInitialized_eq _)) rfl
  | findUpvalue =>
      cases h
      exact hs.findUpvalue ht
  | beginFunction =>
      cases h
      exact hs.beginFunction ht
  | nameFunction =>
      obtain ⟨u, hu, h⟩ := bind_eq_ok.mp h
      cases h
      exact hs.nameFunction hu ht
  | countParameter =>
      cases h
      exact .ok (hs.modify ht { hs.current with arity := congrArg (· + 1) hs.current.arity }) rfl
  | endFunction => exact hs.endFunction h ht

open Session in
/-- A run does what following it says. -/
theorem CompileM.tracks {α : Type} (m : CompileM α) {s t : Session} {A : Stage} {a : α}
    (hs : s.Reached A) (h : m.run s = .ok (a, t)) : s.Tracks a t (m.follow A) := by
  induction m generalizing s t A with
  | done result =>
      cases result with
      | error fault => cases h
      | ok a =>
          cases h
          exact .ok hs rfl
  | ask q =>
      cases h
      rw [follow, hs.answer q]
      exact .ok hs rfl
  | act action => exact action.tracks hs h
  | chain first next ihFirst ihNext =>
      rw [run] at h
      split at h
      · next b u hfirst =>
          have htracks := ihFirst hs hfirst
          rw [follow]
          cases hfollow : first.follow A with
          | ok result =>
              obtain ⟨b', B⟩ := result
              rw [hfollow] at htracks
              cases htracks with
              | ok hu hdiagnostics => exact (ihNext b hu h).of_eq hdiagnostics
          | error stop =>
              rw [hfollow] at htracks
              cases htracks with
              | unknown => exact .unknown
              | problem hreports => exact .problem (hreports.append ((next b).appends h))
      · cases h
  | part phrase body ih => exact ih hs h

end LoxBytecode
