import LoxBytecode.Proofs.Compile.Forms
import LoxBytecode.Proofs.Compile.Totality
import LoxBytecode.Proofs.Session.Tight
import LoxBytecode.Proofs.Session.Waiting

/-!
# Functions that Wait for a Body

The body of a function can be anything: it nests further functions, is reported anywhere, and goes
on behind what it skips. Whatever it is, the functions around it wait: code, scopes and locals that
they have are theirs when it ends, and the one that it is in has its closure (`function_frame`).

That no body ends more functions than it begins can be read off the tree of its parts
(`CompileM.Levels`), without a look at any session.
-/

namespace LoxBytecode

open Heap

namespace CompileM

/-! ### Levels -/

/-- What a compilation does to the number of functions that it is in: where it begins in `n` it ends
in a number with a property, whatever its parts answer, and on the way it ends no function around
those. -/
def Levels {α : Type} (P : Nat → Prop) (n : Nat) : CompileM α → Prop
  | .done _ | .ask _ => P n
  | .act a => a.Levels P n
  | .chain first next => first.Levels (fun k => ∀ b, (next b).Levels P k) n
  | .part _ body => body.Levels P n

/-- The functions that wait stay below those that a compilation is in. The induction is on the tree
of its parts: the property of a chain's first part is that the rest goes on from the number. -/
theorem Levels.below {α : Type} {m : CompileM α} {P : Nat → Prop} {n : Nat} (hm : m.Levels P n)
    {outers : List FunctionState} {f : FunctionHandle} {s : Session}
    (hs : Below outers f n s.functions.states) :
    (∀ u, m.Visits s u → ∃ k, Below outers f k u.functions.states) ∧
      ∀ a t, m.run s = .ok (a, t) → ∃ k, P k ∧ Below outers f k t.functions.states := by
  induction m generalizing P n s with
  | done result =>
      refine ⟨fun u hu => ⟨n, hu ▸ hs⟩, fun a t hrun => ?_⟩
      cases result <;> cases hrun
      exact ⟨n, hm, hs⟩
  | ask q =>
      refine ⟨fun u hu => ⟨n, hu ▸ hs⟩, fun a t hrun => ?_⟩
      cases hrun
      exact ⟨n, hm, hs⟩
  | act action =>
      refine ⟨fun u hu => ?_, fun a t hrun => Action.Levels.below hm hs hrun⟩
      rcases hu with rfl | ⟨b, hb⟩
      · exact ⟨n, hs⟩
      · obtain ⟨k, -, hk⟩ := Action.Levels.below hm hs hb
        exact ⟨k, hk⟩
  | chain first next ihFirst ihNext =>
      obtain ⟨hvisited, hends⟩ := ihFirst hm hs
      refine ⟨fun u hu => ?_, fun a t hrun => ?_⟩
      · rcases hu with hu | ⟨b, v, hfirst, hu⟩
        · exact hvisited u hu
        · obtain ⟨k, hnext, hk⟩ := hends b v hfirst
          exact (ihNext b (hnext b) hk).1 u hu
      · obtain ⟨⟨b, v⟩, hfirst, hrun⟩ := bind_eq_ok.mp ((run_bind ..).symm.trans hrun)
        obtain ⟨k, hnext, hk⟩ := hends b v hfirst
        exact (ihNext b (hnext b) hk).2 a t hrun
  | part phrase body ih => exact ih hm hs

/-- Of a chain the second part starts at the levels where the first ends. -/
theorem levels_bind {α β : Type} {P : Nat → Prop} {n : Nat} {first : CompileM β}
    {next : β → CompileM α} : (first >>= next).Levels P n ↔
      first.Levels (fun k => ∀ b, (next b).Levels P k) n := Iff.rfl

/-- A branch is at the levels that the side taken is at. -/
theorem levels_ite {α : Type} {P : Nat → Prop} {n : Nat} {c : Prop} [Decidable c]
    {yes no : CompileM α} : (if c then yes else no).Levels P n ↔
      if c then yes.Levels P n else no.Levels P n := by
  split <;> rfl

/-- Where it begins in some functions, the compilation ends in as many. -/
def KeepsLevel {α : Type} (m : CompileM α) : Prop :=
  ∀ (P : Nat → Prop) (n : Nat), P n → m.Levels P n

/-- To end at the level where it began is a property of compilations put together. -/
theorem compositional_keepsLevel : Compositional Action.OfDeclaration KeepsLevel where
  done _ _ _ hn := hn
  ask _ _ _ hn := hn
  act {α a} ha P n hn := by
    cases a with
    | resume | beginFunction | nameFunction | endFunction => exact ha.elim
    | _ => exact hn
  chain hfirst hnext P n hn := hfirst _ n fun b => hnext b P n hn
  part hbody := hbody

/-! ### A function -/

/-- What is compiled between the beginning of a function and its end. -/
def functionInside (declaration : CompileM Unit) (budget : Nat) : CompileM Unit := do
  act .nameFunction
  beginScope
  expect .leftParen "'(' after function name"
  unless ← nextIs .rightParen do parameters budget
  expect .rightParen "')' after parameters"
  expect .leftBrace "'\x7b' before function body"
  block declaration budget
  emitReturn

/-- A function is its inside and its end, in a session where it was begun. -/
theorem run_function (declaration : CompileM Unit) (budget : Nat) (s : Session) :
    (function declaration budget).run s =
      (functionInside declaration budget >>= fun _ => closeFunction).run s.beginFunction := by
  simp only [function, functionInside, closeFunction, run_bind, run_act, Action.apply, ok_bind,
    bind_assoc]
  refine bind_congr fun _ => bind_congr fun _ => bind_congr fun _ => bind_congr fun _ =>
    bind_congr fun _ => ?_
  split <;> simp only [run_bind, run_act, Action.apply, bind_assoc]

/-- Inside a function every compilation ends at the level of that function. -/
theorem keepsLevel_functionInside {declaration : CompileM Unit} (budget : Nat)
    (hdeclaration : declaration.KeepsLevel) : (functionInside declaration budget).KeepsLevel := by
  have hT := compositional_keepsLevel
  have hE := hT.ofExpression
  have hname : (act .nameFunction).KeepsLevel := fun _ _ hn => hn
  refine hT.bind hname fun _ => hT.bind (hT.act trivial) fun _ => hT.bind (hE.expect _ _) fun _ =>
    hT.bind (hE.nextIs _) fun _ => ?_
  have hbody : (expect .rightParen "')' after parameters" >>= fun _ =>
      expect .leftBrace "'\x7b' before function body" >>= fun _ =>
        block declaration budget >>= fun _ => emitReturn).KeepsLevel :=
    hT.bind (hE.expect _ _) fun _ => hT.bind (hE.expect _ _) fun _ =>
      hT.bind (hT.block hdeclaration budget) fun _ => hE.emitAll _
  exact hT.ite hbody (hT.bind (hT.parameters budget) fun _ => hbody)

/-- The function that begins is the one that ends. -/
theorem keepsLevel_function {declaration : CompileM Unit} (budget : Nat)
    (hdeclaration : declaration.KeepsLevel) : (function declaration budget).KeepsLevel := by
  intro P n hn
  have hinside := keepsLevel_functionInside budget hdeclaration
    (fun k => ∀ _ : Unit, closeFunction.Levels P k) (n + 1) fun _ => ⟨n, rfl, fun _ _ => hn⟩
  simp only [function, functionInside, levels_bind, levels_ite] at hinside ⊢
  exact fun _ => hinside

/-- The end of a function changes the one around it by a constant and an instruction. -/
theorem functions_closeFunction {u t : Session} (h : closeFunction.run u = .ok ((), t)) :
    ∃ parent rest k pairs, u.functions.enclosing = parent :: rest ∧
      captureBytes u.functions.current.upvalues = .ok pairs ∧
      (parent.chunk.constants.size ≤ 255 → k.toNat = parent.chunk.constants.size) ∧
      t.functions = ⟨{ parent with
        chunk := (parent.chunk.addConstant (.function u.functions.current.function)).2
          |>.writeInstruction .closure (k :: pairs) t.previous.line }, rest⟩ := by
  obtain ⟨⟨⟨k, captures⟩, v⟩, hend, h⟩ := bind_eq_ok.mp ((run_bind ..).symm.trans h)
  obtain ⟨⟨pairs, v'⟩, hpairs, h⟩ := bind_eq_ok.mp ((run_bind ..).symm.trans h)
  obtain ⟨bytes, hbytes, hpairs⟩ := bind_eq_ok.mp ((run_liftM ..).symm.trans hpairs)
  cases hpairs
  cases h
  obtain ⟨st, parent, rest, heap, w, hfunctions, rfl, -, rfl, hadd⟩ :=
    Session.endFunction_eq_ok hend
  have hv := (Session.functions_heap_addConstant hadd).1
  refine ⟨parent, rest, k, pairs, by rw [hfunctions], by rw [hfunctions]; exact hbytes, ?_, ?_⟩
  · rcases Session.addConstant_eq_ok hadd with ⟨hsize, rfl, -⟩ | ⟨hsize, -⟩
    · exact fun _ => Nat.mod_eq_of_lt (Nat.lt_succ_of_le hsize)
    · exact fun hle => absurd hle (Nat.not_le.mpr hsize)
  · have hemit : (v.emit .closure (k :: pairs)).functions = ⟨{ v.functions.current with
        chunk := v.functions.current.chunk.writeInstruction .closure (k :: pairs) v.previous.line },
        v.functions.enclosing⟩ := rfl
    rw [hemit, hv, hfunctions]
    rfl

/-- While a function is compiled, from its beginning up to its end, the functions that were being
compiled before do nothing but wait, wherever its compilation is and however it goes on. When it has
ended, the one around it is the current one again, with a constant and a closure more; and it does
end when there is budget for the tokens left. -/
theorem function_frame (s : Session) (n budget : Nat) :
    (function (declaration n) budget).run s =
        (functionInside (declaration n) budget >>= fun _ => closeFunction).run s.beginFunction ∧
      (∀ u, (functionInside (declaration n) budget).Visits s.beginFunction u →
        ∃ inner held, u.functions.enclosing = inner ++ held ∧ AllWait s.functions.states held) ∧
      (∀ t, (function (declaration n) budget).run s = .ok ((), t) →
        ∃ u parent rest k pairs,
          (functionInside (declaration n) budget).run s.beginFunction = .ok ((), u) ∧
          u.functions.current.function = s.beginFunction.functions.current.function ∧
          u.functions.enclosing = parent :: rest ∧ AllWait s.functions.states (parent :: rest) ∧
          captureBytes u.functions.current.upvalues = .ok pairs ∧
          (s.chunk.constants.size ≤ 255 → k.toNat = s.chunk.constants.size) ∧
          t.functions = ⟨{ parent with
            chunk := (s.chunk.addConstant (.function u.functions.current.function)).2
              |>.writeInstruction .closure (k :: pairs) t.previous.line }, rest⟩) ∧
      (s.Bounded → 2 * s.left + 3 ≤ n → s.left + 1 ≤ budget →
        ∃ t, (function (declaration n) budget).run s = .ok ((), t)) := by
  have hdeclaration := (compositional_keepsLevel.statement_declaration (fun _ _ hn => hn)
    keepsLevel_function n).2
  have hlevels : (functionInside (declaration n) budget).Levels (· = 0) 0 :=
    keepsLevel_functionInside budget hdeclaration _ _ rfl
  have hbegun : Below s.functions.states s.beginFunction.functions.current.function 0
      s.beginFunction.functions.states := ⟨rfl, .refl _⟩
  obtain ⟨hvisited, hends⟩ := hlevels.below hbegun
  have hrun := run_function (declaration n) budget s
  refine ⟨hrun, fun u hu => ?_, fun t ht => ?_, fun hs hn hbudget => ?_⟩
  · obtain ⟨k, hk⟩ := hvisited u hu
    exact hk.exists_append
  · rw [hrun, run_bind] at ht
    obtain ⟨⟨⟨⟩, u⟩, hinside, hclose⟩ := bind_eq_ok.mp ht
    obtain ⟨k, rfl, hfunction, hwaits⟩ := hends () u hinside
    obtain ⟨parent, rest, k, pairs, henclosing, hpairs, hk, hfunctions⟩ :=
      functions_closeFunction hclose
    rw [henclosing] at hwaits
    have hchunk : parent.chunk = s.chunk := hwaits.head.chunk
    rw [hchunk] at hk hfunctions
    exact ⟨u, parent, rest, k, pairs, hinside, hfunction, henclosing, hwaits, hpairs, hk,
      hfunctions⟩
  · have hdeclaration {k : Nat} : (declaration n).Completes .nothing (s.left + 1) k :=
      (completes_statement_declaration n).2 (by omega)
    obtain ⟨⟨⟩, t, ht, -⟩ := completes_function hbudget hdeclaration (passes_declaration n)
      s hs (Nat.lt_succ_self _) (Nat.zero_le _) trivial
    exact ⟨t, ht⟩

/-- A script of the tokens of `x f() { x; }`, which has read the first one. -/
def nested : Session :=
  (Session.start ⟨[⟨.identifier, "x", 1⟩, ⟨.identifier, "f", 1⟩, ⟨.leftParen, "(", 1⟩,
    ⟨.rightParen, ")", 1⟩, ⟨.leftBrace, "\x7b", 1⟩, ⟨.identifier, "x", 1⟩, ⟨.semicolon, ";", 1⟩,
    ⟨.rightBrace, "\x7d", 1⟩], 1⟩ (ofConfig ⟨true, 0, 2⟩) []).advance

/-- Declare a local with the current name, and pass the name behind it. -/
def besideLocal : CompileM Unit := do
  advance
  beginScope
  act .declare
  markInitialized
  advance

/-- A function that captures the local beside it: the local is marked meanwhile. -/
theorem function_frame_capture : ∃ s t : Session, s.Bounded ∧
    (function (declaration 15) 7).run s = .ok ((), t) ∧
    s.functions.current.locals.map Local.captured = [false, false] ∧
    t.functions.current.locals.map Local.captured = [true, false] ∧
    t.chunk.code.toList = [Opcode.closure.toByte, 0, 1, 1] ∧
    ∃ parent rest, AllWait s.functions.states (parent :: rest) ∧ t.functions.enclosing = rest := by
  have hstart : nested.Bounded :=
    bounded_advance_start (Reachable.ofConfig ⟨true, 0, 2⟩).wf (by decide)
      (by simp [Token.Quoted])
  obtain ⟨s, hs⟩ : ∃ s, besideLocal.run nested = .ok ((), s) := ⟨_, rfl⟩
  have hbefore : (besideLocal.run nested).map (fun r =>
      (r.2.left, r.2.functions.current.locals.map Local.captured)) = .ok (6, [false, false]) := by
    cbv
  have hafter : ((besideLocal >>= fun _ => function (declaration 15) 7).run nested).map (fun r =>
      (r.2.functions.current.locals.map Local.captured, r.2.chunk.code.toList)) =
        .ok ([true, false], [Opcode.closure.toByte, 0, 1, 1]) := by
    cbv
  rw [hs] at hbefore
  obtain ⟨hleft, hlocals⟩ := Prod.mk.inj (Except.ok.inj hbefore)
  have hleft : s.left = 6 := hleft
  obtain ⟨-, -, hends, hcompletes⟩ := function_frame s 15 7
  obtain ⟨t, ht⟩ := hcompletes (besideLocal.bounded hstart hs) (by omega) (by omega)
  obtain ⟨u, parent, rest, k, pairs, -, -, -, hwaits, -, -, hfunctions⟩ := hends t ht
  rw [run_bind_of_ok hs, ht] at hafter
  obtain ⟨hmarked, hcode⟩ := Prod.mk.inj (Except.ok.inj hafter)
  exact ⟨s, t, besideLocal.bounded hstart hs, ht, hlocals, hmarked, hcode, parent, rest, hwaits,
    by rw [hfunctions]⟩

end CompileM

end LoxBytecode
