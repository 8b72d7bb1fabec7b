import LoxBytecode.Compile.Variable
import LoxBytecode.Proofs.Code.Item
import LoxBytecode.Proofs.Session.Captures

/-!
# Scopes of Code

The locals in scope at a place in a function's code, and how deep that place is nested. A scope
says which names are slots and how many slots are taken. It is `Settled` where a statement can
begin or end: every local is initialized and belongs to one of the scopes that are open.
-/

namespace LoxBytecode

/-- The locals in scope, innermost first, and the number of scopes that are open. -/
structure Scope where
  locals : List Local
  depth : Nat
deriving DecidableEq, Repr

/-- The scope at the place that a function state has reached. -/
def FunctionState.scope (st : FunctionState) : Scope :=
  ⟨st.locals, st.scopeDepth⟩

/-- The scope at the place that a session has reached. -/
def Session.scope (s : Session) : Scope :=
  s.functions.current.scope

namespace Scope

/-! ### Moving through a program -/

/-- The scope inside a new one. -/
def enter (Γ : Scope) : Scope :=
  ⟨Γ.locals, Γ.depth + 1⟩

/-- The locals of the innermost scope. -/
def owned (Γ : Scope) : List Local :=
  Γ.locals.takeWhile (FunctionState.isWithin (Γ.depth - 1))

/-- The scope around the innermost one. -/
def leave (Γ : Scope) : Scope :=
  ⟨Γ.locals.dropWhile (FunctionState.isWithin (Γ.depth - 1)), Γ.depth - 1⟩

/-- The scope with a local that is not initialized yet. -/
def declare (Γ : Scope) (name : String) : Scope :=
  ⟨⟨name, none, false⟩ :: Γ.locals, Γ.depth⟩

/-- The scope with its last local initialized. Outside all scopes there is nothing to do. -/
def define (Γ : Scope) : Scope :=
  match Γ.depth, Γ.locals with
  | depth + 1, l :: ls => ⟨{ l with depth := some (depth + 1) } :: ls, depth + 1⟩
  | _, _ => Γ

/-- The names of the locals. -/
def frame (Γ : Scope) : Frame :=
  Γ.locals.map Local.name

/-- The scope at the beginning of a function's body. -/
def ofParameters (parameters : List String) : Scope :=
  ⟨parameters.reverse.map (⟨·, some 1, false⟩) ++ [FunctionState.reserved], 1⟩

/-- The same scope, except that more locals may be marked as captured. -/
structure Same (Γ Γ' : Scope) : Prop where
  locals : Γ'.locals.map FunctionState.ident = Γ.locals.map FunctionState.ident
  depth : Γ'.depth = Γ.depth

/-- A scope has the same locals as itself. -/
theorem Same.refl (Γ : Scope) : Γ.Same Γ := ⟨rfl, rfl⟩

/-- Scopes with the same locals as a third one have the same. -/
theorem Same.trans {Γ Γ' Γ'' : Scope} (h₁ : Γ.Same Γ') (h₂ : Γ'.Same Γ'') : Γ.Same Γ'' :=
  ⟨h₂.locals.trans h₁.locals, h₂.depth.trans h₁.depth⟩

/-- Scopes with the same locals have equally many. -/
theorem Same.length {Γ Γ' : Scope} (h : Γ.Same Γ') : Γ'.locals.length = Γ.locals.length := by
  simpa using congrArg List.length h.locals

/-- Scopes with the same locals have the same names in the same slots. -/
theorem Same.frame {Γ Γ' : Scope} (h : Γ.Same Γ') : Γ'.frame = Γ.frame := by
  have hnames := congrArg (List.map Prod.fst) h.locals
  rwa [List.map_map, List.map_map] at hnames

/-! ### Parameters -/

/-- The parameters of a function lie above slot 0, the last one on top. -/
theorem frame_ofParameters (parameters : List String) :
    (ofParameters parameters).frame = parameters.reverse ++ [""] := by
  rw [frame, ofParameters, List.map_append, List.map_map]
  exact congrArg (· ++ [""]) (List.map_id _)

/-- There is one slot more than parameters. -/
theorem length_ofParameters (parameters : List String) :
    (ofParameters parameters).locals.length = parameters.length + 1 := by
  simp [ofParameters]

/-- One more parameter is one more local that can be read. -/
theorem ofParameters_append (parameters : List String) (name : String) :
    ofParameters (parameters ++ [name]) = ((ofParameters parameters).declare name).define := by
  simp [ofParameters, declare, define]

/-! ### Items at a place -/

/-- An instruction. -/
def op (Γ : Scope) (o : Opcode) (operands : List UInt8) : Item :=
  .instr o operands Γ.locals.length

/-- A mark. -/
def mark (Γ : Scope) (happening : Happening) : Item :=
  .mark happening Γ.locals.length

/-- A jump ahead over some code. -/
def jump (Γ : Scope) (o : Opcode) (body : List Item) : Item :=
  Γ.op o (Chunk.bytesOf16 (Item.size body))

/-- A jump back. Its distance counts from behind its operand. -/
def back (Γ : Scope) (distance : Nat) : Item :=
  Γ.op .loop (Chunk.bytesOf16 distance)

/-- The instructions that remove the locals of the innermost scope. -/
def pops (Γ : Scope) : List Item :=
  Γ.owned.map fun l => Γ.leave.op (if l.captured then .closeUpvalue else .pop) []

@[simp] theorem length_bytesOf16 (n : Nat) : (Chunk.bytesOf16 n).length = 2 := rfl

@[simp] theorem size_op_cons (Γ : Scope) (o : Opcode) (operands : List UInt8)
    (is : List Item) : Item.size (Γ.op o operands :: is) = 1 + operands.length + Item.size is :=
  Item.size_instr o operands _

@[simp] theorem size_mark_cons (Γ : Scope) (happening : Happening) (is : List Item) :
    Item.size (Γ.mark happening :: is) = Item.size is := rfl

@[simp] theorem size_jump_cons (Γ : Scope) (o : Opcode) (body is : List Item) :
    Item.size (Γ.jump o body :: is) = 3 + Item.size is :=
  size_op_cons Γ o _ is

@[simp] theorem size_back_cons (Γ : Scope) (distance : Nat) (is : List Item) :
    Item.size (Γ.back distance :: is) = 3 + Item.size is :=
  size_op_cons Γ .loop _ is

/-- A jump only depends on how much it skips. -/
theorem jump_congr {Γ : Scope} {o : Opcode} {body body' : List Item}
    (h : Item.size body = Item.size body') : Γ.jump o body = Γ.jump o body' := by
  rw [jump, jump, h]

/-- The pops at the end of a scope take one byte for each of its locals. -/
theorem size_pops (Γ : Scope) : Item.size Γ.pops = Γ.owned.length := by
  rw [pops]
  induction Γ.owned with
  | nil => rfl
  | cons l ls ih =>
      rw [List.map_cons, size_op_cons, ih, List.length_cons, List.length_nil]
      omega

/-! ### The closures among some items -/

@[simp] theorem closures_mark_cons (Γ : Scope) (happening : Happening) (is : List Item) :
    Item.closures (Γ.mark happening :: is) = Item.closures is := rfl

@[simp] theorem closures_plain_cons (Γ : Scope) (o : Opcode) (is : List Item) :
    Item.closures (Γ.op o [] :: is) = Item.closures is := by
  cases o <;> rfl

/-- An instruction that is no closure makes no function. -/
theorem closures_op_cons (Γ : Scope) {o : Opcode} (ho : o ≠ .closure)
    (operands : List UInt8) (is : List Item) :
    Item.closures (Γ.op o operands :: is) = Item.closures is := by
  cases o <;> first | rfl | exact absurd rfl ho

@[simp] theorem closures_back_cons (Γ : Scope) (distance : Nat) (is : List Item) :
    Item.closures (Γ.back distance :: is) = Item.closures is := rfl

@[simp] theorem closures_pops (Γ : Scope) : Item.closures Γ.pops = [] := by
  rw [Item.closures, List.filterMap_eq_nil_iff]
  intro i hi
  obtain ⟨l, -, rfl⟩ := List.mem_map.mp hi
  cases l.captured <;> rfl

/-! ### Settled scopes -/

/-- Every local is initialized and belongs to a scope that is open. -/
def Settled (Γ : Scope) : Prop :=
  ∀ l ∈ Γ.locals, ∃ d, l.depth = some d ∧ d ≤ Γ.depth

/-- All parameters can be read. -/
theorem settled_ofParameters (parameters : List String) : (ofParameters parameters).Settled := by
  intro l hl
  rcases List.mem_append.mp hl with hl | hl
  · obtain ⟨name, -, rfl⟩ := List.mem_map.mp hl
    exact ⟨1, rfl, Nat.le_refl _⟩
  · rw [List.mem_singleton.mp hl]
    exact ⟨0, rfl, Nat.zero_le _⟩

/-- Where no local waits, none does in a scope inside. -/
theorem Settled.enter {Γ : Scope} (h : Γ.Settled) : Γ.enter.Settled := by
  intro l hl
  obtain ⟨d, hd, hle⟩ := h l hl
  exact ⟨d, hd, Nat.le_succ_of_le hle⟩

/-- Where no local waits, none does in a scope with the same locals. -/
theorem Settled.of_same {Γ Γ' : Scope} (h : Γ.Settled) (hsame : Γ.Same Γ') : Γ'.Settled := by
  intro l hl
  have hident : FunctionState.ident l ∈ Γ.locals.map FunctionState.ident :=
    hsame.locals ▸ List.mem_map_of_mem hl
  obtain ⟨l', hl', heq⟩ := List.mem_map.mp hident
  obtain ⟨d, hd, hle⟩ := h l' hl'
  refine ⟨d, ?_, hsame.depth ▸ hle⟩
  rw [← hd]
  exact congrArg Prod.snd heq.symm

/-- The scope `Γ'` is `Γ` with further locals of the innermost scope, and perhaps with more
marks of being captured. -/
structure Extends (Γ Γ' : Scope) : Prop where
  depth : Γ'.depth = Γ.depth
  locals : ∃ new, Γ'.locals.map FunctionState.ident =
      new ++ Γ.locals.map FunctionState.ident ∧
    (∀ p ∈ new, p.2 = some Γ.depth) ∧ (Γ.depth = 0 → new = [])

/-- A scope with the same locals extends one by none. -/
theorem Same.extends {Γ Γ' : Scope} (h : Γ.Same Γ') : Γ.Extends Γ' :=
  ⟨h.depth, [], h.locals, by simp, fun _ => rfl⟩

/-- Extending an extension extends the first. -/
theorem Extends.trans {Γ Γ' Γ'' : Scope} (h₁ : Γ.Extends Γ') (h₂ : Γ'.Extends Γ'') :
    Γ.Extends Γ'' := by
  obtain ⟨hdepth₁, new₁, hlocals₁, hnew₁, hnil₁⟩ := h₁
  obtain ⟨hdepth₂, new₂, hlocals₂, hnew₂, hnil₂⟩ := h₂
  refine ⟨hdepth₂.trans hdepth₁, new₂ ++ new₁, ?_, fun p hp => ?_, fun hzero => ?_⟩
  · rw [hlocals₂, hlocals₁, List.append_assoc]
  · rcases List.mem_append.mp hp with hp | hp
    · exact (hnew₂ p hp).trans (congrArg some hdepth₁)
    · exact hnew₁ p hp
  · rw [hnil₁ hzero, hnil₂ (hdepth₁.trans hzero)]
    rfl

/-- A local that is declared and defined extends its scope. -/
theorem extends_define_declare (Γ : Scope) (hdepth : Γ.depth ≠ 0) (name : String) :
    Γ.Extends (Γ.declare name).define := by
  obtain ⟨locals, depth⟩ := Γ
  cases depth with
  | zero => exact absurd rfl hdepth
  | succ depth => exact ⟨rfl, [(name, some (depth + 1))], rfl, by simp, by simp⟩

/-- There is one local more. -/
theorem length_define_declare (Γ : Scope) (name : String) :
    (Γ.declare name).define.locals.length = Γ.locals.length + 1 := by
  obtain ⟨locals, depth⟩ := Γ
  cases depth <;> rfl

/-- At the top there is no local to define. -/
theorem define_of_depth_eq_zero {Γ : Scope} (h : Γ.depth = 0) : Γ.define = Γ := by
  obtain ⟨locals, depth⟩ := Γ
  cases h
  rfl

/-- A local that is initialized already is not changed by being initialized. -/
theorem define_of_same {Γ Γ' : Scope} (hdepth : Γ.depth ≠ 0) {name : String}
    (h : (Γ.declare name).define.Same Γ') : Γ'.define = Γ' := by
  obtain ⟨locals, depth⟩ := Γ
  obtain ⟨locals', depth'⟩ := Γ'
  cases depth with
  | zero => exact absurd rfl hdepth
  | succ depth =>
      obtain rfl : depth' = depth + 1 := h.depth
      cases locals' with
      | nil => rfl
      | cons l ls =>
          obtain ⟨hhead, -⟩ := List.cons.inj h.locals
          have hl : l.depth = some (depth + 1) := congrArg Prod.snd hhead
          obtain ⟨name, d, captured⟩ := l
          cases hl
          rfl

/-- Where no local waits, none does in an extension. -/
theorem Extends.settled {Γ Γ' : Scope} (h : Γ.Extends Γ') (hs : Γ.Settled) : Γ'.Settled := by
  obtain ⟨hdepth, new, hlocals, hnew, -⟩ := h
  intro l hl
  have hident : FunctionState.ident l ∈ new ++ Γ.locals.map FunctionState.ident :=
    hlocals ▸ List.mem_map_of_mem hl
  rcases List.mem_append.mp hident with hmem | hmem
  · exact ⟨Γ.depth, hnew _ hmem, Nat.le_of_eq hdepth.symm⟩
  · obtain ⟨l', hl', heq⟩ := List.mem_map.mp hmem
    obtain ⟨d, hd, hle⟩ := hs l' hl'
    exact ⟨d, (congrArg Prod.snd heq.symm).trans hd, hdepth ▸ hle⟩

/-- An extension has no fewer locals. -/
theorem Extends.length_le {Γ Γ' : Scope} (h : Γ.Extends Γ') :
    Γ.locals.length ≤ Γ'.locals.length := by
  obtain ⟨-, new, hlocals, -⟩ := h
  have hlength := congrArg List.length hlocals
  simp only [List.length_map, List.length_append] at hlength
  omega

/-- Dropping the locals of a deeper scope leaves those of a settled one. -/
theorem map_ident_dropWhile {Γ : Scope} (hs : Γ.Settled) {ls : List Local}
    {new : List (String × Option Nat)}
    (hls : ls.map FunctionState.ident = new ++ Γ.locals.map FunctionState.ident)
    (hnew : ∀ p ∈ new, p.2 = some (Γ.depth + 1)) :
    (ls.dropWhile (FunctionState.isWithin Γ.depth)).map FunctionState.ident =
      Γ.locals.map FunctionState.ident := by
  induction new generalizing ls with
  | nil =>
      rw [List.nil_append] at hls
      cases ls with
      | nil => exact hls
      | cons l ls =>
          have hl : FunctionState.ident l ∈ Γ.locals.map FunctionState.ident :=
            hls ▸ List.mem_cons_self ..
          obtain ⟨l', hl', heq⟩ := List.mem_map.mp hl
          obtain ⟨d, hd, hle⟩ := hs l' hl'
          have hdepth : l.depth = some d := (congrArg Prod.snd heq.symm).trans hd
          rw [List.dropWhile_cons_of_neg]
          · exact hls
          · simp [FunctionState.isWithin, hdepth, hle]
  | cons p new ih =>
      cases ls with
      | nil => cases hls
      | cons l ls =>
          obtain ⟨hhead, htail⟩ := List.cons.inj hls
          have hdepth : l.depth = some (Γ.depth + 1) :=
            (congrArg Prod.snd hhead).trans (hnew p (List.mem_cons_self ..))
          rw [List.dropWhile_cons_of_pos]
          · exact ih htail fun q hq => hnew q (List.mem_cons_of_mem _ hq)
          · simp [FunctionState.isWithin, hdepth]

/-- Leaving a scope that was entered gives back what was there before. -/
theorem Extends.leave {Γ Γ' : Scope} (hs : Γ.Settled) (h : Γ.enter.Extends Γ') :
    Γ.Same Γ'.leave ∧ Γ'.owned.length + Γ.locals.length = Γ'.locals.length := by
  obtain ⟨hdepth, new, hlocals, hnew, -⟩ := h
  have hdepth' : Γ'.depth - 1 = Γ.depth := by
    rw [hdepth]
    rfl
  have hleave := map_ident_dropWhile hs hlocals hnew
  refine ⟨⟨?_, hdepth'⟩, ?_⟩
  · rw [Scope.leave, hdepth']
    exact hleave
  · have hlength := congrArg List.length hleave
    have htake := congrArg List.length
      (List.takeWhile_append_dropWhile (p := FunctionState.isWithin Γ.depth) (l := Γ'.locals))
    rw [List.length_append] at htake
    rw [List.length_map, List.length_map] at hlength
    rw [owned, hdepth']
    omega

end Scope

end LoxBytecode
