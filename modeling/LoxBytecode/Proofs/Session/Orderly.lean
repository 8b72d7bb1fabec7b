import LoxBytecode.Proofs.Session.Captures
import LoxBytecode.Proofs.Session.Sound

/-!
# Orderly Sessions

Three things hold in every state of a compilation, whatever the source: the session is sound,
its captures are linked, and the tokens to come end with the source (`Orderly`). Diagnostics
are never taken back (`Heard`). All of this is kept by every action, so that a run without
diagnostics passes through `Clean` sessions only.
-/

namespace LoxBytecode

namespace Session

/-! ### Tokens to come -/

/-- The source ends once: no token ahead stands for its end, and none follows it. -/
structure OnTrack (s : Session) : Prop where
  ahead : ∀ t ∈ s.upcoming.ahead, t.kind ≠ .eof
  atEnd : s.current.kind = .eof → s.upcoming.ahead = []

/-- The tokens from the current one on, those left out that are pieces of no token. -/
def remaining (s : Session) : List Token :=
  if s.current.kind = .eof then [] else s.current :: s.upcoming.ahead.filter (·.kind ≠ .error)

/-- No tokens remain at the end of the source. -/
theorem remaining_of_eof {s : Session} (h : s.current.kind = .eof) : s.remaining = [] :=
  if_pos h

/-- Before the end the current token remains, and those ahead that are no errors. -/
theorem remaining_of_ne_eof {s : Session} (h : s.current.kind ≠ .eof) :
    s.remaining = s.current :: s.upcoming.ahead.filter (·.kind ≠ .error) :=
  if_neg h

@[simp] theorem upcoming_report (s : Session) (t : Token) (message : String) :
    (s.report t message).upcoming = s.upcoming := by
  simp only [report]
  split <;> rfl

@[simp] theorem current_report (s : Session) (t : Token) (message : String) :
    (s.report t message).current = s.current := by
  simp only [report]
  split <;> rfl

@[simp] theorem previous_report (s : Session) (t : Token) (message : String) :
    (s.report t message).previous = s.previous := by
  simp only [report]
  split <;> rfl

@[simp] theorem previous_readFrom (s : Session) (ts : List Token) :
    (s.readFrom ts).previous = s.previous := by
  induction ts generalizing s with
  | nil => rfl
  | cons t ts ih =>
      rw [readFrom]
      split
      · rw [ih, previous_report]
      · rfl

@[simp] theorem previous_advance (s : Session) : s.advance.previous = s.current :=
  previous_readFrom ..

@[simp] theorem functions_advance (s : Session) : s.advance.functions = s.functions :=
  functions_readFrom ..

@[simp] theorem heap_advance (s : Session) : s.advance.heap = s.heap :=
  heap_readFrom ..

/-- Reading on from tokens that do not contain the end leaves exactly them, and stays on
track. -/
theorem readFrom_spec (s : Session) {ts : List Token} (h : ∀ t ∈ ts, t.kind ≠ .eof) :
    (s.readFrom ts).remaining = ts.filter (·.kind ≠ .error) ∧ (s.readFrom ts).OnTrack := by
  induction ts generalizing s with
  | nil => exact ⟨rfl, by simp [readFrom], fun _ => rfl⟩
  | cons t ts ih =>
      obtain ⟨ht, hts⟩ := List.forall_mem_cons.mp h
      rw [readFrom]
      split
      next herror =>
        rw [List.filter_cons_of_neg (by simpa using herror)]
        exact ih _ hts
      next herror =>
        rw [List.filter_cons_of_pos (by simpa using herror)]
        exact ⟨if_neg ht, hts, fun heof => absurd heof ht⟩

/-- Moving on stays on track. -/
theorem OnTrack.advance {s : Session} (h : s.OnTrack) : s.advance.OnTrack :=
  (readFrom_spec _ h.ahead).2

/-- Moving on passes one token, and none at the end. -/
theorem OnTrack.remaining_advance {s : Session} (h : s.OnTrack) :
    s.advance.remaining = s.remaining.tail := by
  have hspec : s.advance.remaining = s.upcoming.ahead.filter (·.kind ≠ .error) :=
    (readFrom_spec _ h.ahead).1
  rw [hspec]
  by_cases heof : s.current.kind = .eof
  · rw [remaining_of_eof heof, h.atEnd heof]
    rfl
  · rw [remaining_of_ne_eof heof]
    rfl

/-! ### Diagnostics -/

/-- Diagnostics are only added, and whoever is recovering has reported one. -/
structure Heard (s t : Session) : Prop where
  size : s.diagnostics.size ≤ t.diagnostics.size
  recovering : t.recovering = true →
    s.recovering = true ∨ s.diagnostics.size < t.diagnostics.size

variable {s t u : Session}

/-- Nothing is lost where nothing happens. -/
theorem Heard.refl (s : Session) : Heard s s :=
  ⟨Nat.le_refl _, Or.inl⟩

/-- What is heard twice is heard. -/
theorem Heard.trans (h₁ : Heard s t) (h₂ : Heard t u) : Heard s u := by
  refine ⟨Nat.le_trans h₁.size h₂.size, fun hu => ?_⟩
  rcases h₂.recovering hu with ht | hlt
  · exact (h₁.recovering ht).imp_right fun hlt => Nat.lt_of_lt_of_le hlt h₂.size
  · exact Or.inr (Nat.lt_of_le_of_lt h₁.size hlt)

/-- An operation that reports nothing. -/
theorem Heard.of_eq (hdiagnostics : t.diagnostics = s.diagnostics)
    (hrecovering : t.recovering = s.recovering) : Heard s t :=
  ⟨Nat.le_of_eq (congrArg _ hdiagnostics.symm), fun h => Or.inl (hrecovering ▸ h)⟩

/-- A report after an operation that reports nothing. -/
theorem Heard.after (h : Heard t u) (hdiagnostics : t.diagnostics = s.diagnostics)
    (hrecovering : t.recovering = s.recovering) : Heard s u :=
  (Heard.of_eq hdiagnostics hrecovering).trans h

/-- A report adds a diagnostic unless the session is recovering. -/
theorem heard_report (s : Session) (tok : Token) (message : String) :
    Heard s (s.report tok message) := by
  simp only [report]
  split
  next hrecovering => exact ⟨Nat.le_refl _, Or.inl⟩
  next hrecovering => exact ⟨by simp, fun _ => Or.inr (by simp)⟩

/-- Lexical errors at the front are reported. -/
theorem heard_readFrom (s : Session) (ts : List Token) : Heard s (s.readFrom ts) := by
  induction ts generalizing s with
  | nil => exact .of_eq rfl rfl
  | cons t ts ih =>
      rw [readFrom]
      split
      · exact (heard_report s t t.lexeme).trans (ih _)
      · exact .of_eq rfl rfl

/-- Moving on reports the lexical errors that it passes. -/
theorem heard_advance (s : Session) : Heard s s.advance :=
  (heard_readFrom { s with previous := s.current } s.upcoming.ahead).after rfl rfl

/-- Loading a value loses no diagnostic. -/
theorem heard_load (s : Session) (v : Value) : Heard s (s.load v) := by
  rw [load]
  split
  · exact heard_report ..
  · exact .of_eq rfl rfl

/-- Adding a constant loses no diagnostic. -/
theorem heard_addConstant {v : Value} {index : UInt8} (h : s.addConstant v = .ok (index, t)) :
    Heard s t := by
  rcases addConstant_eq_ok h with ⟨-, -, rfl⟩ | ⟨-, rfl⟩
  · exact .of_eq rfl rfl
  · exact (heard_report (s.modifyChunk _) _ _).after rfl rfl

end Session

/-- No action takes a diagnostic back. -/
theorem Action.heard {β : Type} (a : Action β) {s t : Session} {b : β}
    (h : a.apply s = .ok (b, t)) : Session.Heard s t := by
  cases a with
  | advance =>
      cases h
      exact Session.heard_advance s
  | fail | failHere =>
      cases h
      exact Session.heard_report ..
  | resume =>
      cases h
      exact ⟨Nat.le_refl _, by rintro ⟨⟩⟩
  | emit | beginScope | markInitialized | findUpvalue | beginFunction | countParameter =>
      cases h
      exact .of_eq rfl rfl
  | patchJump offset =>
      obtain ⟨u, hu, h⟩ := bind_eq_ok.mp h
      cases h
      rcases Session.patchJump_eq_ok hu with ⟨c, -, -, -, rfl⟩ | ⟨-, rfl⟩
      · exact .of_eq rfl rfl
      · exact Session.heard_report ..
  | loadNumber =>
      cases h
      rw [Session.loadNumber]
      split
      · exact Session.heard_load ..
      · exact Session.heard_report ..
  | loadString =>
      obtain ⟨u, hu, h⟩ := bind_eq_ok.mp h
      cases h
      obtain ⟨text, -, hload⟩ := bind_eq_ok.mp hu
      cases hload
      exact (Session.heard_load (s.intern text).2 _).after rfl rfl
  | nameConstant =>
      exact (Session.heard_addConstant (s := (s.intern s.previous.lexeme).2) h).after rfl rfl
  | endScope =>
      obtain ⟨⟨flags, st⟩, -, h⟩ := bind_eq_ok.mp h
      cases h
      exact .of_eq rfl rfl
  | declare =>
      cases h
      rw [Session.declare]
      split
      · exact .of_eq rfl rfl
      · exact Session.heard_report ..
  | nameFunction =>
      obtain ⟨u, hu, h⟩ := bind_eq_ok.mp h
      cases h
      rw [Session.nameFunction] at hu
      obtain ⟨heap, -, rfl⟩ := Session.changeHeap_eq_ok hu
      exact .of_eq rfl rfl
  | endFunction =>
      obtain ⟨st, parent, rest, heap, u, -, -, -, rfl, hadd⟩ := Session.endFunction_eq_ok h
      exact (Session.heard_addConstant hadd).after rfl rfl

/-! ### What every action keeps -/

/-- What holds in every state of a compilation. -/
structure Session.Orderly (s : Session) : Prop where
  sound : s.Sound []
  linked : Linked s.functions.current s.functions.enclosing
  onTrack : s.OnTrack

section

open Session

variable {s t : Session}

/-- A change that leaves the captures alone keeps the functions linked. -/
theorem Session.linked_modifyFunction {f : FunctionState → FunctionState}
    (h : Linked s.functions.current s.functions.enclosing)
    (hsame : (f s.functions.current).upvalues = s.functions.current.upvalues) :
    Linked (s.modifyFunction f).functions.current (s.modifyFunction f).functions.enclosing :=
  h.of_upvalues hsame

/-- Ending a scope leaves the captures alone. -/
theorem FunctionState.upvalues_endScope {st st' : FunctionState} {flags : List Bool}
    (h : st.endScope = .ok (flags, st')) : st'.upvalues = st.upvalues := by
  rw [endScope] at h
  split at h <;> cases h
  rfl

/-- Declaring a local leaves the captures alone. -/
theorem FunctionState.upvalues_declareLocal {st st' : FunctionState} {name : String}
    (h : st.declareLocal name = .ok st') : st'.upvalues = st.upvalues := by
  simp only [declareLocal, addLocal] at h
  split at h
  · cases h
  · split at h <;> cases h
    rfl

/-- Making a local usable leaves the captures alone. -/
theorem FunctionState.upvalues_markInitialized (st : FunctionState) :
    st.markInitialized.upvalues = st.upvalues := by
  rw [markInitialized]
  split <;> rfl

/-- Adding a constant keeps the functions linked. -/
theorem Session.linked_addConstant {v : Value} {index : UInt8}
    (h : Linked s.functions.current s.functions.enclosing)
    (hadd : s.addConstant v = .ok (index, t)) :
    Linked t.functions.current t.functions.enclosing := by
  rcases addConstant_eq_ok hadd with ⟨-, -, rfl⟩ | ⟨-, rfl⟩
  · exact linked_modifyFunction h rfl
  · rw [fail, functions_report]
    exact linked_modifyFunction h rfl

/-- Loading a value keeps the functions linked. -/
theorem Session.linked_load {v : Value}
    (h : Linked s.functions.current s.functions.enclosing) :
    Linked (s.load v).functions.current (s.load v).functions.enclosing := by
  rw [load]
  split
  · rwa [fail, functions_report]
  · exact linked_modifyFunction h rfl

/-- Every action keeps captures linked. -/
theorem Action.linked {β : Type} (a : Action β) {b : β}
    (hs : Linked s.functions.current s.functions.enclosing) (h : a.apply s = .ok (b, t)) :
    Linked t.functions.current t.functions.enclosing := by
  cases a with
  | advance =>
      cases h
      rwa [functions_advance]
  | fail problem =>
      cases h
      rwa [Session.fail, functions_report]
  | failHere problem =>
      cases h
      rwa [Session.failHere, functions_report]
  | resume =>
      cases h
      exact hs
  | emit | beginScope | countParameter =>
      cases h
      exact linked_modifyFunction hs rfl
  | patchJump offset =>
      obtain ⟨u, hu, h⟩ := bind_eq_ok.mp h
      cases h
      rcases patchJump_eq_ok hu with ⟨c, -, -, -, rfl⟩ | ⟨-, rfl⟩
      · exact linked_modifyFunction hs rfl
      · rwa [Session.fail, functions_report]
  | loadNumber =>
      cases h
      rw [Session.loadNumber]
      split
      · exact linked_load hs
      · rwa [Session.fail, functions_report]
  | loadString =>
      obtain ⟨u, hu, h⟩ := bind_eq_ok.mp h
      cases h
      obtain ⟨text, -, hload⟩ := bind_eq_ok.mp hu
      cases hload
      exact linked_load (s := (s.intern text).2) hs
  | nameConstant => exact linked_addConstant (s := (s.intern s.previous.lexeme).2) hs h
  | endScope =>
      obtain ⟨⟨flags, st⟩, hst, h⟩ := bind_eq_ok.mp h
      cases h
      exact linked_modifyFunction hs (FunctionState.upvalues_endScope hst)
  | declare =>
      cases h
      rw [Session.declare]
      split
      next st hst => exact linked_modifyFunction hs (FunctionState.upvalues_declareLocal hst)
      next => rwa [Session.fail, functions_report]
  | markInitialized =>
      cases h
      exact linked_modifyFunction hs (FunctionState.upvalues_markInitialized _)
  | findUpvalue =>
      cases h
      exact (resolveCapture_spec s.previous.lexeme s.functions.current
        s.functions.enclosing).linked hs
  | beginFunction =>
      cases h
      exact ⟨by rintro c ⟨⟩, hs⟩
  | nameFunction =>
      obtain ⟨u, hu, h⟩ := bind_eq_ok.mp h
      cases h
      rw [Session.nameFunction] at hu
      obtain ⟨heap, -, rfl⟩ := changeHeap_eq_ok hu
      exact hs
  | endFunction =>
      obtain ⟨st, parent, rest, heap, u, hfunctions, -, -, rfl, hadd⟩ := endFunction_eq_ok h
      rw [hfunctions] at hs
      exact linked_addConstant
        (s := { s with functions := ⟨parent, rest⟩, heap := heap }) hs.2 hadd

/-- The tokens are the same in both sessions. -/
structure Session.SameTokens (s t : Session) : Prop where
  upcoming : t.upcoming = s.upcoming
  current : t.current = s.current
  previous : t.previous = s.previous

/-- Every session has its own tokens. -/
theorem Session.SameTokens.refl (s : Session) : SameTokens s s :=
  ⟨rfl, rfl, rfl⟩

/-- Sessions with the tokens of a third one have the same. -/
theorem Session.SameTokens.trans (h₁ : SameTokens s t) (h₂ : SameTokens t u) :
    SameTokens s u :=
  ⟨h₂.upcoming.trans h₁.upcoming, h₂.current.trans h₁.current, h₂.previous.trans h₁.previous⟩

/-- What remains depends on nothing but the tokens. -/
theorem Session.SameTokens.remaining (h : SameTokens s t) : t.remaining = s.remaining := by
  rw [Session.remaining, Session.remaining, h.current, h.upcoming]

/-- Being on track depends on nothing but the tokens. -/
theorem Session.SameTokens.onTrack (h : SameTokens s t) (hs : s.OnTrack) : t.OnTrack := by
  refine ⟨?_, ?_⟩
  · rw [h.upcoming]
    exact hs.ahead
  · rw [h.upcoming, h.current]
    exact hs.atEnd

/-- Reporting moves no token. -/
theorem Session.sameTokens_report (s : Session) (tok : Token) (message : String) :
    SameTokens s (s.report tok message) :=
  ⟨upcoming_report .., current_report .., previous_report ..⟩

/-- Loading a value moves no token. -/
theorem Session.sameTokens_load (s : Session) (v : Value) : SameTokens s (s.load v) := by
  rw [load]
  split
  · exact sameTokens_report ..
  · exact ⟨rfl, rfl, rfl⟩

/-- Adding a constant moves no token. -/
theorem Session.sameTokens_addConstant {v : Value} {index : UInt8}
    (h : s.addConstant v = .ok (index, t)) : SameTokens s t := by
  rcases addConstant_eq_ok h with ⟨-, -, rfl⟩ | ⟨-, rfl⟩
  · exact ⟨rfl, rfl, rfl⟩
  · have h := sameTokens_report (s.modifyChunk fun c => (c.addConstant v).2) s.previous
      (Problem.chunk .tooManyConstants).message
    exact ⟨h.upcoming, h.current, h.previous⟩

/-- The action that moves on to the next token. -/
def Action.Moves {β : Type} : Action β → Prop
  | .advance => True
  | _ => False

/-- Only moving on changes the tokens. -/
theorem Action.sameTokens {β : Type} {a : Action β} (ha : ¬ a.Moves) {b : β}
    (h : a.apply s = .ok (b, t)) : SameTokens s t := by
  cases a with
  | advance => exact absurd trivial ha
  | fail | failHere =>
      cases h
      exact sameTokens_report ..
  | resume | emit | beginScope | markInitialized | findUpvalue | beginFunction
  | countParameter =>
      cases h
      exact ⟨rfl, rfl, rfl⟩
  | patchJump offset =>
      obtain ⟨u, hu, h⟩ := bind_eq_ok.mp h
      cases h
      rcases patchJump_eq_ok hu with ⟨c, -, -, -, rfl⟩ | ⟨-, rfl⟩
      · exact ⟨rfl, rfl, rfl⟩
      · exact sameTokens_report ..
  | loadNumber =>
      cases h
      rw [Session.loadNumber]
      split
      · exact sameTokens_load ..
      · exact sameTokens_report ..
  | loadString =>
      obtain ⟨u, hu, h⟩ := bind_eq_ok.mp h
      cases h
      obtain ⟨text, -, hload⟩ := bind_eq_ok.mp hu
      cases hload
      have hsame := sameTokens_load (s.intern text).2 (.string (s.intern text).1)
      exact ⟨hsame.upcoming, hsame.current, hsame.previous⟩
  | nameConstant =>
      have hsame := sameTokens_addConstant (s := (s.intern s.previous.lexeme).2) h
      exact ⟨hsame.upcoming, hsame.current, hsame.previous⟩
  | endScope =>
      obtain ⟨⟨flags, st⟩, -, h⟩ := bind_eq_ok.mp h
      cases h
      exact ⟨rfl, rfl, rfl⟩
  | declare =>
      cases h
      rw [Session.declare]
      split
      · exact ⟨rfl, rfl, rfl⟩
      · exact sameTokens_report ..
  | nameFunction =>
      obtain ⟨u, hu, h⟩ := bind_eq_ok.mp h
      cases h
      rw [Session.nameFunction] at hu
      obtain ⟨heap, -, rfl⟩ := changeHeap_eq_ok hu
      exact ⟨rfl, rfl, rfl⟩
  | endFunction =>
      obtain ⟨st, parent, rest, heap, u, -, -, -, rfl, hadd⟩ := endFunction_eq_ok h
      have hsame := sameTokens_addConstant hadd
      exact ⟨hsame.upcoming, hsame.current, hsame.previous⟩

/-- An action moves on to the next token or moves none. -/
theorem Action.eq_advance_or_sameTokens {β : Type} (a : Action β) {b : β}
    (h : a.apply s = .ok (b, t)) : t = s.advance ∨ SameTokens s t := by
  by_cases ha : a.Moves
  · cases a with
    | advance =>
        cases h
        exact Or.inl rfl
    | _ => cases ha
  · exact Or.inr (Action.sameTokens ha h)

/-- What holds of every token of a session. -/
structure Session.Throughout (P : Token → Prop) (s : Session) : Prop where
  previous : P s.previous
  current : P s.current
  upcoming : ∀ t ∈ s.upcoming.ahead, P t

/-- What holds of all tokens depends on nothing else of a session. -/
theorem Session.Throughout.of_sameTokens {P : Token → Prop} (hs : s.Throughout P)
    (hsame : SameTokens s t) : t.Throughout P :=
  ⟨hsame.previous ▸ hs.previous, hsame.current ▸ hs.current, hsame.upcoming ▸ hs.upcoming⟩

/-- What holds of the tokens that are read holds of those of the session. -/
theorem Session.throughout_readFrom {P : Token → Prop} (heof : ∀ line, P (Token.eof line))
    {ts : List Token} (hprevious : P s.previous) (hts : ∀ t ∈ ts, P t) :
    (s.readFrom ts).Throughout P := by
  induction ts generalizing s with
  | nil => exact ⟨hprevious, heof _, List.forall_mem_nil _⟩
  | cons t ts ih =>
      obtain ⟨ht, hts⟩ := List.forall_mem_cons.mp hts
      rw [readFrom]
      split
      · exact ih (by rwa [previous_report]) hts
      · exact ⟨hprevious, ht, hts⟩

/-- No action brings in a token other than the end of the source. -/
theorem Action.throughout {P : Token → Prop} (heof : ∀ line, P (Token.eof line)) {β : Type}
    (a : Action β) {b : β} (hs : s.Throughout P) (h : a.apply s = .ok (b, t)) :
    t.Throughout P := by
  rcases a.eq_advance_or_sameTokens h with rfl | hsame
  · exact Session.throughout_readFrom heof hs.current hs.upcoming
  · exact hs.of_sameTokens hsame

/-- Every action keeps a session on track. -/
theorem Action.onTrack {β : Type} (a : Action β) {b : β} (hs : s.OnTrack)
    (h : a.apply s = .ok (b, t)) : t.OnTrack := by
  rcases a.eq_advance_or_sameTokens h with rfl | hsame
  · exact hs.advance
  · exact hsame.onTrack hs

/-- Every action keeps a session orderly. -/
theorem Action.orderly {β : Type} (a : Action β) {b : β} (hs : s.Orderly)
    (h : a.apply s = .ok (b, t)) : t.Orderly :=
  ⟨(a.preserves hs.sound h).sound, a.linked hs.linked h, a.onTrack hs.onTrack h⟩

end

end LoxBytecode
