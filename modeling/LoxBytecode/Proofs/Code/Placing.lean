import LoxBytecode.Proofs.Code.Jumps

/-!
# Placing Jumps

In a session that is `Placing`, the code of every function compiled so far has a `Layout`: of
those being compiled some jumps may be open, of those that have ended none is. What an action
does to the layouts depends on what it does to the code only: most leave it as it is, some write
an instruction that is no jump, and the few that are about jumps and functions have a lemma each.
-/

namespace LoxBytecode

open Heap

/-- The functions being compiled, innermost first, with the code that each has so far. -/
def FunctionStack.codes (s : FunctionStack) : List (FunctionHandle × List UInt8) :=
  s.states.map fun st => (st.function, st.chunk.code.toList)

/-- The codes of a stack are those of its functions. -/
theorem FunctionStack.handles_eq (s : FunctionStack) : s.handles = s.codes.map (·.1) := by
  rw [handles, cores, codes, List.map_map, List.map_map]
  rfl

/-- The first of them is that of the current function. -/
theorem Session.codes_eq (s : Session) : s.functions.codes =
    (s.functions.current.function, s.chunk.code.toList) :: s.functions.codes.tail := rfl

/-- Growing functions write nothing. -/
theorem map_code_of_forall₂_grows {sts sts' : List FunctionState}
    (h : List.Forall₂ FunctionState.Grows sts sts') :
    (sts'.map fun st => (st.function, st.chunk.code.toList)) =
      sts.map fun st => (st.function, st.chunk.code.toList) := by
  induction h with
  | nil => rfl
  | cons hgrows _ ih =>
      rw [List.map_cons, List.map_cons, ih, hgrows.chunk]
      exact congrArg (fun f => (f, _) :: _) (congrArg Prod.fst hgrows.core)

/-- The code of a function has a layout in which some jumps are open. -/
def HasLayout (C : JumpCall → Prop) (failed : Prop) (σ : List Event)
    (w : FunctionHandle × List UInt8) (J : List JumpEnd) : Prop :=
  ∃ is, Layout C failed w.1 J σ w.2 is

namespace Session

/-- Something was reported. -/
def Failed (s : Session) : Prop :=
  0 < s.diagnostics.size

/-- A function has ended, and its code has a layout without open jumps. -/
def Ended (C : JumpCall → Prop) (σ : List Event) (s : Session) (f : FunctionHandle) : Prop :=
  s.heap.Reach s.functions.pool (.function f) ∧ ∃ o, s.heap.functions.get? f.index = some o ∧
    HasLayout C s.Failed σ (f, o.chunk.code.toList) []

/-- All code has layouts. There is a list of open ends for every function being compiled, and
all events so far were of such a function or of one that has ended. -/
structure Placing (C : JumpCall → Prop) (σ : List Event) (Js : List (List JumpEnd))
    (s : Session) : Prop where
  sound : s.Sound []
  alert : s.recovering = true → s.Failed
  codes : List.Forall₂ (HasLayout C s.Failed σ) s.functions.codes Js
  accounted : ∀ e ∈ σ, e.function ∈ s.functions.handles ∨ s.Ended C σ e.function

end Session

section

variable {C : JumpCall → Prop} {failed failed' : Prop} {σ τ : List Event} {J J' : List JumpEnd}
  {Js Js' : List (List JumpEnd)} {s t : Session} {f : FunctionHandle}
  {w : FunctionHandle × List UInt8} {β : Type} {a : Action β} {b : β}

/-- What happens to other functions leaves a layout alone. -/
theorem HasLayout.append (h : HasLayout C failed σ w J) (hfailed : failed → failed')
    (hτ : ∀ e ∈ τ, e.function ≠ w.1) : HasLayout C failed' (σ ++ τ) w J := by
  obtain ⟨is, hlayout⟩ := h
  exact ⟨is, (hlayout.mono hfailed (fun _ => id) fun _ => Or.inl).events_append hτ⟩

/-- A compilation that has failed stays failed. -/
theorem Session.Heard.still_failed (h : Session.Heard s t) (hs : s.Failed) : t.Failed :=
  Nat.lt_of_lt_of_le hs h.size

/-- A function that has ended stays as it is, whatever happens to others. -/
theorem Session.Ended.append (h : s.Ended C σ f) (hp : Session.Preserves [] s t)
    (hheard : Session.Heard s t) (hτ : ∀ e ∈ τ, e.function ≠ f) : t.Ended C (σ ++ τ) f := by
  obtain ⟨hreach, o, ho, hlayout⟩ := h
  exact ⟨hp.reach _ rfl hreach, o, Eq.trans (hp.agree _ hreach) ho, hlayout.append hheard.still_failed hτ⟩

namespace Session.Placing

/-- After an action there are layouts if there are for what is being compiled then. -/
theorem of_action (hs : s.Placing C σ Js) (ha : a.apply s = .ok (b, t))
    (hcodes : List.Forall₂ (HasLayout C t.Failed (σ ++ a.trace s)) t.functions.codes Js')
    (hhandles : ∀ f ∈ s.functions.handles,
      f ∈ t.functions.handles ∨ t.Ended C (σ ++ a.trace s) f) :
    t.Placing C (σ ++ a.trace s) Js' where
  sound := (a.preserves hs.sound ha).sound
  alert hrecovering := by
    rcases (a.heard ha).recovering hrecovering with hold | hlt
    · exact (a.heard ha).still_failed (hs.alert hold)
    · exact Nat.zero_lt_of_lt hlt
  codes := hcodes
  accounted e he := by
    have hcurrent : s.functions.current.function ∈ s.functions.handles := List.mem_cons_self ..
    rcases List.mem_append.mp he with he | he
    · rcases hs.accounted e he with hhandle | hended
      · exact hhandles _ hhandle
      · refine Or.inr (hended.append (a.preserves hs.sound ha) (a.heard ha) fun e' he' heq => ?_)
        rw [Action.function_of_mem_trace he'] at heq
        exact hs.sound.apart _ hcurrent (heq ▸ hended.1)
    · rw [Action.function_of_mem_trace he]
      exact hhandles _ hcurrent

/-- The functions around the current one do not notice what happens to that one. -/
theorem enclosing (hs : s.Placing C σ (J :: Js)) (hfailed : s.Failed → failed)
    (hτ : ∀ e ∈ τ, e.function = s.functions.current.function) :
    List.Forall₂ (HasLayout C failed (σ ++ τ)) s.functions.codes.tail Js := by
  have hnodup := hs.sound.nodup
  rw [s.functions.handles_eq] at hnodup
  have hapart : ∀ w ∈ s.functions.codes.tail, w.1 ≠ s.functions.current.function :=
    fun w hw heq => (List.nodup_cons.mp hnodup).1 (List.mem_map.mpr ⟨w, hw, heq⟩)
  refine ((List.forall₂_and_left _ _).mpr ⟨hapart, (List.forall₂_cons.mp hs.codes).2⟩).imp ?_
  rintro w J ⟨hne, hlayout⟩
  exact hlayout.append hfailed fun e he heq => hne (heq.symm.trans (hτ e he))

/-- The layout of the current function comes first. -/
theorem current (hs : s.Placing C σ (J :: Js)) : HasLayout C s.Failed σ
    (s.functions.current.function, s.chunk.code.toList) J :=
  (List.forall₂_cons.mp hs.codes).1

/-- An action that writes nothing. -/
theorem silent (hs : s.Placing C σ Js) (ha : a.apply s = .ok (b, t))
    (hcodes : t.functions.codes = s.functions.codes) : t.Placing C (σ ++ a.trace s) Js := by
  have hhead := (List.cons_eq_cons.mp (t.codes_eq.symm.trans (hcodes.trans s.codes_eq))).1
  have hτ := Action.trace_of_size_eq ha (congrArg (·.2.length) hhead)
  refine hs.of_action ha ?_ fun f hf => Or.inl ?_
  · rw [hcodes, hτ]
    exact hs.codes.imp fun w J hlayout => hlayout.append (a.heard ha).still_failed (by simp)
  · rwa [t.functions.handles_eq, hcodes, ← s.functions.handles_eq]

/-- An action that writes an instruction. -/
theorem writes (hs : s.Placing C σ (J :: Js)) (ha : a.apply s = .ok (b, t)) {op : Opcode}
    {operands : List UInt8}
    (hcodes : t.functions.codes = (s.functions.current.function,
      s.chunk.code.toList ++ op.toByte :: operands) :: s.functions.codes.tail)
    (hplaced : Item.Placed C t.Failed s.functions.current.function J' s.chunk.size
      (.instr op operands s.functions.current.locals.length))
    (hsub : ∀ x ∈ J, x ∈ J')
    (hnew : ∀ x ∈ J', x ∈ J ∨ ∀ is, Item.size is = s.chunk.size →
      x.IsIn C s.functions.current.function
        (is ++ [.instr op operands s.functions.current.locals.length])) :
    t.Placing C (σ ++ a.trace s) (J' :: Js) := by
  obtain ⟨hfunction, hcode⟩ := Prod.mk.inj (List.cons_eq_cons.mp (t.codes_eq.symm.trans hcodes)).1
  have hsize : t.chunk.size = s.chunk.size + (operands.length + 1) := by
    simpa [Chunk.size] using congrArg List.length hcode
  have hτ := Action.trace_of_size_lt ha hfunction (by omega)
  refine hs.of_action ha ?_ fun f hf => Or.inl ?_
  · rw [hcodes]
    refine .cons ?_ (hs.enclosing (a.heard ha).still_failed fun e => Action.function_of_mem_trace)
    obtain ⟨is, hlayout⟩ := hs.current
    have hmono : Layout C t.Failed _ J σ _ is :=
      hlayout.mono (a.heard ha).still_failed (fun _ => id) fun _ => Or.inl
    refine ⟨_, hmono.add hplaced hsub (fun x hx => (hnew x hx).imp_right fun h => h is ?_) hτ⟩
    exact hlayout.length.symm
  · rw [s.functions.handles_eq] at hf
    rw [t.functions.handles_eq, hcodes]
    exact hf

/-- A phrase begins or ends. -/
theorem event (hs : s.Placing C σ Js) {happening : Happening} (hne : happening ≠ .writes) :
    s.Placing C (σ ++ [s.event happening]) Js := by
  have hcurrent : s.functions.current.function ∈ s.functions.handles := List.mem_cons_self ..
  rcases Js with - | ⟨J, Js⟩
  · cases hs.codes
  refine ⟨hs.sound, hs.alert, ?_, fun e he => ?_⟩
  · refine .cons ?_ (hs.enclosing id fun e he => by rw [List.mem_singleton.mp he]; rfl)
    obtain ⟨is, hlayout⟩ := hs.current
    have hmark := hlayout.add (τ := [s.event happening])
      (.mark s.functions.current.locals.length hne) (fun _ => id) (fun _ => Or.inl) rfl
    rw [Item.bytes, List.append_nil] at hmark
    exact ⟨_, hmark⟩
  · rcases List.mem_append.mp he with he | he
    · refine (hs.accounted e he).imp_right fun hended => ?_
      refine hended.append (.refl hs.sound) (.refl s) fun e' he' heq => ?_
      obtain rfl := List.mem_singleton.mp he'
      have hsame : s.functions.current.function = e.function := heq
      exact hs.sound.apart _ hcurrent (hsame ▸ hended.1)
    · rw [List.mem_singleton.mp he]
      exact Or.inl hcurrent

end Session.Placing

/-! ### Actions that are about no jump -/

/-- The action begins and ends no function, and is about no jump. -/
def Action.Plain {β : Type} : Action β → Prop
  | .patchJump _ | .beginFunction | .endFunction => False
  | .emit op _ => op.isJump = false
  | _ => True

/-- The code is what it was, or there is one more instruction, which is no jump. -/
inductive FunctionStack.AddsPlain (s t : FunctionStack) : Prop
  | nothing : t.codes = s.codes → AddsPlain s t
  | one (op : Opcode) (operands : List UInt8) : op.isJump = false →
      t.codes = (s.current.function, s.current.chunk.code.toList ++ op.toByte :: operands) ::
        s.codes.tail → AddsPlain s t

namespace Session

/-- A change that leaves the code alone changes none of the codes. -/
theorem codes_modifyFunction {g : FunctionState → FunctionState}
    (hfunction : (g s.functions.current).function = s.functions.current.function)
    (hchunk : (g s.functions.current).chunk.code = s.functions.current.chunk.code) :
    (s.modifyFunction g).functions.codes = s.functions.codes :=
  List.cons_eq_cons.mpr ⟨Prod.ext hfunction (congrArg Array.toList hchunk), rfl⟩

/-- A diagnostic changes none of the codes. -/
theorem codes_report (s : Session) (tok : Token) (message : String) :
    (s.report tok message).functions.codes = s.functions.codes := by
  rw [functions_report]

/-- A constant changes none of the codes. -/
theorem codes_addConstant {v : Value} {index : UInt8} (h : s.addConstant v = .ok (index, t)) :
    t.functions.codes = s.functions.codes := by
  rcases addConstant_eq_ok h with ⟨-, -, rfl⟩ | ⟨-, rfl⟩
  · rfl
  · exact codes_report ..

/-- An instruction is added to the code of the current function. -/
theorem codes_emit (s : Session) (op : Opcode) (operands : List UInt8) :
    (s.emit op operands).functions.codes = (s.functions.current.function,
      s.chunk.code.toList ++ op.toByte :: operands) :: s.functions.codes.tail := by
  refine List.cons_eq_cons.mpr ⟨Prod.ext rfl ?_, rfl⟩
  show (s.chunk.writeInstruction op operands s.previous.line).code.toList = _
  rw [Chunk.code_writeInstruction, Array.toList_append]

/-- An instruction makes the code longer by its opcode and its operands. -/
theorem size_emit (s : Session) (op : Opcode) (operands : List UInt8) :
    (s.emit op operands).chunk.size = s.chunk.size + (operands.length + 1) := by
  show (s.chunk.writeInstruction op operands s.previous.line).code.size = _
  rw [Chunk.code_writeInstruction, Array.size_append]
  rfl

/-- Loading a value adds one instruction at most, which is no jump. -/
theorem addsPlain_load (s : Session) (v : Value) :
    s.functions.AddsPlain (s.load v).functions := by
  rw [load]
  split
  · exact .nothing (codes_report ..)
  · refine .one (Chunk.loadOf s.chunk.constants.size).1 (Chunk.loadOf s.chunk.constants.size).2 ?_
      (List.cons_eq_cons.mpr ⟨Prod.ext rfl ?_, rfl⟩)
    · rw [Chunk.loadOf]
      split <;> rfl
    · show (s.chunk.writeLoad v s.previous.line).code.toList = _
      rw [Chunk.code_writeLoad, Array.toList_append]
      rfl

end Session

open Session in
/-- Every plain action adds one instruction at most, which is no jump. -/
theorem Action.Plain.addsPlain (hplain : a.Plain) (h : a.apply s = .ok (b, t)) :
    s.functions.AddsPlain t.functions := by
  cases a with
  | patchJump | beginFunction | endFunction => exact hplain.elim
  | advance =>
      cases h
      exact .nothing (congrArg _ (functions_advance s))
  | fail | failHere =>
      cases h
      exact .nothing (codes_report ..)
  | resume | beginScope | countParameter =>
      cases h
      exact .nothing rfl
  | emit op operands =>
      cases h
      exact .one op operands hplain (codes_emit ..)
  | loadNumber =>
      cases h
      rw [Session.loadNumber]
      split
      · exact addsPlain_load ..
      · exact .nothing (codes_report ..)
  | loadString =>
      obtain ⟨u, hu, h⟩ := bind_eq_ok.mp h
      cases h
      obtain ⟨text, -, hload⟩ := bind_eq_ok.mp hu
      cases hload
      exact addsPlain_load (s.intern text).2 _
  | nameConstant => exact .nothing (codes_addConstant (s := (s.intern s.previous.lexeme).2) h)
  | endScope =>
      obtain ⟨⟨flags, st⟩, hst, h⟩ := bind_eq_ok.mp h
      cases h
      rw [FunctionState.endScope] at hst
      split at hst <;> cases hst
      exact .nothing rfl
  | declare =>
      cases h
      rw [Session.declare]
      split
      next st hst =>
        simp only [FunctionState.declareLocal, FunctionState.addLocal] at hst
        split at hst
        · cases hst
        · split at hst <;> cases hst
          exact .nothing rfl
      next => exact .nothing (codes_report ..)
  | markInitialized =>
      cases h
      refine .nothing (codes_modifyFunction ?_ ?_) <;>
        (rw [FunctionState.markInitialized]; split <;> rfl)
  | findUpvalue =>
      cases h
      have hresolution := resolveCapture_spec s.previous.lexeme s.functions.current
        s.functions.enclosing
      exact .nothing (map_code_of_forall₂_grows (.cons hresolution.grows hresolution.outers_grow))
  | nameFunction =>
      obtain ⟨u, hu, h⟩ := bind_eq_ok.mp h
      cases h
      rw [Session.nameFunction] at hu
      obtain ⟨heap, -, rfl⟩ := changeHeap_eq_ok hu
      exact .nothing rfl

/-- What was open stays open, and what was placed stays placed. -/
theorem Session.Placing.plain (hs : s.Placing C σ Js) (hplain : a.Plain)
    (ha : a.apply s = .ok (b, t)) : t.Placing C (σ ++ a.trace s) Js := by
  rcases Js with - | ⟨J, Js⟩
  · cases hs.codes
  cases hplain.addsPlain ha with
  | nothing hcodes => exact hs.silent ha hcodes
  | one op operands hop hcodes =>
      exact hs.writes ha hcodes (.plain operands _ hop) (fun _ => id) (fun _ => Or.inl)

/-! ### Jumps -/

namespace Session.Placing

/-- A jump ahead is written with room for its distance. -/
theorem emit_ahead {op : Opcode} (hs : s.Placing C σ (J :: Js)) (hop : op.format = .jumpForward) :
    (s.emit op (Chunk.bytesOf16 maxJump)).Placing C
      (σ ++ (Action.emit op (Chunk.bytesOf16 maxJump)).trace s)
      ((.operand (s.chunk.size + 1) :: J) :: Js) := by
  refine hs.writes (b := ()) rfl (codes_emit ..) (.open _ hop (List.mem_cons_self ..))
    (fun x => List.mem_cons_of_mem _) fun x hx => ?_
  rcases List.mem_cons.mp hx with rfl | hx
  · refine Or.inr fun is hsize => Item.hasRoom_append.mpr (Or.inr (Or.inl ⟨hop, rfl, ?_⟩))
    rw [hsize, Nat.zero_add]
  · exact Or.inl hx

/-- A jump back is written with its distance, or with none after a report. -/
theorem emit_back {operands : List UInt8} (hs : s.Placing C σ (J :: Js))
    (hplaced : Item.Placed C s.Failed s.functions.current.function J s.chunk.size
      (.instr .loop operands s.functions.current.locals.length)) :
    (s.emit .loop operands).Placing C (σ ++ (Action.emit .loop operands).trace s) (J :: Js) :=
  hs.writes (b := ()) rfl (codes_emit ..) hplaced (fun _ => id) fun _ => Or.inl

/-- Reporting fails. -/
theorem failed_fail (hs : s.Placing C σ Js) (problem : Problem) : (s.fail problem).Failed := by
  rw [fail, report]
  split
  next hrecovering => exact hs.alert hrecovering
  next => simp [Failed]

/-- The distance of an open jump lies inside the code. -/
theorem operand_le (hs : s.Placing C σ (J :: Js)) {j : Nat} (hj : .operand j ∈ J) :
    j + 2 ≤ s.chunk.size := by
  obtain ⟨is, hlayout⟩ := hs.current
  have hsize : s.chunk.size = Item.size is := hlayout.length
  obtain ⟨before, op, operands, n, after, rfl, -, hlength, rfl⟩ := (hlayout.ends _ hj).exists
  rw [hsize, Item.size_append, Item.size_instr]
  omega

/-- A jump back leads to code that is there. -/
theorem target_le (hs : s.Placing C σ (J :: Js)) {target : Nat} (ht : .target target ∈ J) :
    target ≤ s.chunk.size ∧ C (.start s.functions.current.function target) := by
  obtain ⟨is, hlayout⟩ := hs.current
  have hsize : s.chunk.size = Item.size is := hlayout.length
  exact hsize ▸ hlayout.ends _ ht

/-- One can jump back to the end of the code. -/
theorem target (hs : s.Placing C σ (J :: Js))
    (hcall : C (.start s.functions.current.function s.chunk.size)) :
    s.Placing C σ ((.target s.chunk.size :: J) :: Js) := by
  obtain ⟨is, hlayout⟩ := hs.current
  refine ⟨hs.sound, hs.alert, .cons ⟨is, ?_⟩ (List.forall₂_cons.mp hs.codes).2, hs.accounted⟩
  refine { hlayout with
    placed := hlayout.placed.mono id fun x _ _ hx => Or.inl (List.mem_cons_of_mem _ hx)
    ends := List.forall_mem_cons.mpr ⟨?_, hlayout.ends⟩ }
  exact ⟨Nat.le_of_eq hlayout.length, hcall⟩

/-- The ends can be listed otherwise, and those that one can jump back to left out. -/
theorem of_ends (hs : s.Placing C σ (J :: Js)) (hsub : ∀ x ∈ J', x ∈ J)
    (hopen : ∀ x, .operand x ∈ J → .operand x ∈ J') : s.Placing C σ (J' :: Js) := by
  obtain ⟨is, hlayout⟩ := hs.current
  exact ⟨hs.sound, hs.alert, .cons ⟨is, hlayout.mono id hsub fun x hx => Or.inl (hopen x hx)⟩
    (List.forall₂_cons.mp hs.codes).2, hs.accounted⟩

/-- An open jump gets its distance, or has none for ever. -/
theorem patchJump {j : Nat} (hs : s.Placing C σ (J :: Js)) (ht : s.patchJump j = .ok t)
    (hj : .operand j ∈ J) (hcall : C (.patch s.functions.current.function j s.chunk.size))
    (hsub : ∀ x ∈ J', x ∈ J) (hopen : ∀ x, .operand x ∈ J → x = j ∨ .operand x ∈ J') :
    t.Placing C (σ ++ (Action.patchJump j).trace s) (J' :: Js) := by
  have ha : (Action.patchJump j).apply s = .ok ((), t) := by
    rw [Action.apply, ht]
    rfl
  obtain ⟨is, hlayout⟩ := hs.current
  rcases patchJump_eq_ok ht with ⟨c, hc, hle, hfits, rfl⟩ | ⟨-, rfl⟩
  · have hcode := Chunk.code_patch16 hc
    have hτ := Action.trace_of_size_eq ha (show c.code.size = s.chunk.code.size by
      simpa using congrArg List.length hcode)
    have hrest : List.Forall₂ (HasLayout C s.Failed (σ ++ (Action.patchJump j).trace s))
        s.functions.codes.tail Js := hs.enclosing id fun e => Action.function_of_mem_trace
    refine hs.of_action ha (.cons ?_ hrest) fun f hf => Or.inl hf
    rw [hτ, List.append_nil]
    obtain ⟨is', hpatched⟩ := hlayout.patch hj hfits (show _ = s.chunk.size by omega) hcall hsub hopen
    rw [← hcode] at hpatched
    exact ⟨is', hpatched⟩
  · have hτ := Action.trace_of_size_eq ha (congrArg Chunk.size (congrArg
      (fun stack : FunctionStack => stack.current.chunk) (functions_report ..)))
    have hfailed := hs.failed_fail .jumpTooLong
    refine hs.of_action ha ?_ fun f hf => Or.inl ?_
    · rw [fail, functions_report, hτ]
      refine .cons ?_ (hs.enclosing (fun _ => hfailed) (by simp))
      rw [List.append_nil]
      exact ⟨is, hlayout.mono (fun _ => hfailed) hsub fun _ _ => Or.inr hfailed⟩
    · rwa [fail, functions_report]

/-! ### Functions -/

/-- A function that begins has no code yet. -/
theorem beginFunction (hs : s.Placing C σ Js) :
    s.beginFunction.Placing C (σ ++ Action.beginFunction.trace s) ([] :: Js) := by
  have ha : Action.beginFunction.apply s = .ok ((), s.beginFunction) := rfl
  have hp := Action.beginFunction.preserves hs.sound ha
  have hτ : Action.beginFunction.trace s = [] := by
    rw [Action.trace, ha]
    exact if_neg fun hwrites => absurd hwrites.2 (Nat.not_lt_zero _)
  have hnew : ∀ e ∈ σ, e.function ≠ s.beginFunction.functions.current.function := by
    have hf : s.beginFunction.functions.current.function ∈ s.beginFunction.functions.handles :=
      List.mem_cons_self ..
    intro e he heq
    rcases hs.accounted e he with hhandle | hended
    · rw [heq] at hhandle
      exact (List.nodup_cons.mp hp.sound.nodup).1 hhandle
    · exact hp.sound.apart _ hf (heq ▸ hp.reach _ rfl hended.1)
  refine hs.of_action ha (.cons ⟨[], rfl, ?_, trivial, by simp⟩ ?_)
    fun f hf => Or.inl (List.mem_cons_of_mem _ hf)
  · rw [hτ, List.append_nil]
    exact Event.ofFunction_eq_nil hnew
  · rw [hτ, List.append_nil]
    exact hs.codes

/-- A function that ends with no jump open has ended. -/
theorem endFunction {ended : UInt8 × List Capture} (hs : s.Placing C σ ([] :: Js))
    (ht : s.endFunction = .ok (ended, t)) :
    t.Placing C (σ ++ Action.endFunction.trace s) Js := by
  have ha : Action.endFunction.apply s = .ok (ended, t) := ht
  have hp := Action.endFunction.preserves hs.sound ha
  have hheard := Action.endFunction.heard ha
  obtain ⟨st, parent, rest, heap, u, hfunctions, -, hmodify, rfl, hadd⟩ := endFunction_eq_ok ht
  obtain ⟨hafter, hheap⟩ : t.functions =
      ⟨{ parent with chunk := (parent.chunk.addConstant (.function st.function)).2 }, rest⟩ ∧
      t.heap = heap := by
    rcases addConstant_eq_ok hadd with ⟨-, -, rfl⟩ | ⟨-, rfl⟩
    · exact ⟨rfl, rfl⟩
    · rw [fail, functions_report, heap_report]
      exact ⟨rfl, rfl⟩
  have hτ := Action.trace_endFunction hs.sound ht
  refine hs.of_action ha ?_ fun f hf => ?_
  · have hcodes : t.functions.codes = s.functions.codes.tail := by
      rw [hafter, hfunctions]
      rfl
    rw [hcodes]
    exact hs.enclosing hheard.still_failed fun e => Action.function_of_mem_trace
  · rw [hfunctions] at hf
    rcases List.mem_cons.mp hf with rfl | hf
    · obtain ⟨o, ho⟩ := live_function_iff.mp (hs.sound.live_handle (f := st.function)
        (hfunctions ▸ List.mem_cons_self ..))
      have hget := (get?_modifyFunction hmodify _).trans (if_pos rfl)
      rw [show s.heap.functions.get? st.function.index = some o from ho] at hget
      refine Or.inr ⟨.root ?_, _, hheap ▸ hget, ?_⟩
      · rw [FunctionStack.pool, hafter]
        simp [FunctionStack.cores, FunctionStack.states, FunctionState.core]
      · rw [hτ]
        have hcurrent := hs.current
        rw [Session.chunk, hfunctions] at hcurrent
        exact hcurrent.append hheard.still_failed (by simp)
    · refine Or.inl ?_
      rw [FunctionStack.handles, FunctionStack.cores, hafter]
      exact hf

end Session.Placing

end

end LoxBytecode
