import Mathlib
import LoxBytecode.Proofs.Session.Sketch
import LoxBytecode.Token.Scan

/-!
# Sketches under Other Names

An identifier is a word that is not reserved. Another name for every identifier, different ones
for different ones, makes other tokens of those that are identifiers, and so other sketches. What
an action does to a sketch it does to the sketch under other names (`Action.sketch_rename`), and
so does every run (`CompileM.sketch_rename`): names are compared with each other and with nothing
else, and literals keep their texts.

A token of another kind may be taken for a name too, when something went wrong before. That does
no harm as long as its text is not that of an identifier (`Token.Named`).
-/

namespace LoxBytecode

/-! ### Identifiers -/

/-- Whether a text is a word that is not reserved. -/
def isIdentifier (text : String) : Bool :=
  match text.toList with
  | [] => false
  | c :: cs => isWordStart c && cs.all isWordPart && (TokenKind.keyword? text).isNone

/-- The names that a program can choose. -/
def Identifier : Type :=
  { text : String // isIdentifier text = true }

instance : DecidableEq Identifier :=
  inferInstanceAs (DecidableEq { text : String // isIdentifier text = true })

namespace Identifier

variable (ρ : Identifier ↪ Identifier)

/-- The other name of an identifier. What is none stays. -/
def rename (text : String) : String :=
  if h : isIdentifier text = true then (ρ ⟨text, h⟩).1 else text

/-- What is no identifier keeps its spelling. -/
theorem rename_of_not {text : String} (h : isIdentifier text ≠ true) : rename ρ text = text :=
  dif_neg h

/-- Identifiers are renamed to identifiers. -/
theorem isIdentifier_rename (text : String) :
    isIdentifier (rename ρ text) = isIdentifier text := by
  rw [rename]
  split
  next h => rw [(ρ ⟨text, h⟩).2, h]
  next => rfl

/-- Different texts stay different. -/
theorem rename_injective : Function.Injective (rename ρ) := by
  intro x y heq
  have hiff : isIdentifier x = isIdentifier y := by
    rw [← isIdentifier_rename ρ x, heq, isIdentifier_rename]
  by_cases hx : isIdentifier x = true
  · have hy : isIdentifier y = true := hiff ▸ hx
    rw [rename, rename, dif_pos hx, dif_pos hy] at heq
    exact congrArg Subtype.val (ρ.injective (Subtype.ext heq))
  · have hy : isIdentifier y ≠ true := hiff ▸ hx
    rwa [rename_of_not ρ hx, rename_of_not ρ hy] at heq

end Identifier

/-- The labels under other names. -/
def Relabeling.names (ρ : Identifier ↪ Identifier) : Relabeling where
  text := Identifier.rename ρ
  injective := Identifier.rename_injective ρ
  empty := Identifier.rename_of_not ρ (by decide)
  value := id
  handle := id

variable (ρ : Identifier ↪ Identifier)

/-! ### Tokens -/

/-- The token with the other name, if it is an identifier. -/
def Token.rename (t : Token) : Token :=
  if t.kind = .identifier then { t with lexeme := Identifier.rename ρ t.lexeme } else t

/-- The tokens of a source with other names for its identifiers, and nothing else changed. -/
def TokenStream.rename (s : TokenStream) : TokenStream :=
  ⟨s.ahead.map (Token.rename ρ), s.endLine⟩

/-- Identifiers and no other tokens have the texts of identifiers. -/
def Token.Named (t : Token) : Prop :=
  isIdentifier t.lexeme = true ↔ t.kind = .identifier

/-- The end of the source has no name. -/
theorem Token.named_eof (line : Nat) : (Token.eof line).Named :=
  iff_of_false (show ¬ isIdentifier "" = true by decide) (by rintro ⟨⟩)

/-- The lexeme of a token that is no identifier stays what it is. -/
theorem Token.Named.text_eq {t : Token} (ht : t.Named) (hkind : t.kind ≠ .identifier) :
    Identifier.rename ρ t.lexeme = t.lexeme :=
  Identifier.rename_of_not ρ fun h => hkind (ht.mp h)

/-- To rename a token is to replace its lexeme. -/
theorem Token.Named.rename_eq {t : Token} (ht : t.Named) :
    t.rename ρ = t.relabel (.names ρ) := by
  rw [rename]
  split
  · rfl
  next hkind => exact congrArg (Token.mk t.kind · t.line) (ht.text_eq ρ hkind).symm

/-- To rename the tokens of a stream is to replace their lexemes. -/
theorem TokenStream.rename_eq {s : TokenStream} (hs : ∀ t ∈ s.ahead, t.Named) :
    s.rename ρ = s.relabel (.names ρ) :=
  congrArg (TokenStream.mk · s.endLine) (List.map_congr_left fun t ht => (hs t ht).rename_eq ρ)

/-! ### Outlines -/

/-- A name changes, a literal does not. -/
def Origin.rename : Origin → Origin
  | .name text => .name (Identifier.rename ρ text)
  | c => c

/-- The same constants under other names. -/
def Holdings.rename (p : Holdings) : Holdings :=
  ⟨p.name.map (Identifier.rename ρ), p.constants.map (Origin.rename ρ)⟩

/-- The same function under other names. -/
def FunctionOutline.rename (o : FunctionOutline) : FunctionOutline :=
  { o with toHoldings := o.toHoldings.rename ρ }

/-! ### Sketches -/

/-- The same sketch under other names. -/
def Sketch.rename (k : Sketch) : Sketch :=
  ⟨k.session.relabel (.names ρ), k.holdings.map (Holdings.rename ρ),
    k.finished.map (FunctionOutline.rename ρ)⟩

namespace Sketch

variable (k : Sketch) (c : Origin)

/-- Renaming commutes with holding a constant. -/
theorem hold_rename : (k.rename ρ).hold (c.rename ρ) = (k.hold c).rename ρ := by
  obtain ⟨session, holdings, finished⟩ := k
  cases holdings with
  | nil => rfl
  | cons p ps => simp [rename, hold, Holdings.rename]

/-- Renaming commutes with loading a constant. -/
theorem load_rename : (k.rename ρ).load (c.rename ρ) = (k.load c).rename ρ := by
  have hfull : (k.rename ρ).session.chunk.isFull = k.session.chunk.isFull := by
    rw [Chunk.isFull, Chunk.isFull]
    exact congrArg (fun n => decide (_ ≤ n)) (k.session.chunk.size_constants_relabel (.names ρ))
  have hload : (k.rename ρ).session.load .nil = (k.session.load .nil).relabel (.names ρ) :=
    k.session.load_relabel (.names ρ) .nil
  rw [load, load, hfull, hload, hold_rename]
  split <;> rfl

/-- Renaming commutes with adding a constant, whose index stays the same. -/
theorem addConstant_rename : (k.rename ρ).addConstant (c.rename ρ) =
    (k.addConstant c).map fun r => (r.1, r.2.rename ρ) := by
  have hadd : (k.rename ρ).session.addConstant .nil =
      (k.session.addConstant .nil).map fun r => (r.1, r.2.relabel (.names ρ)) :=
    k.session.addConstant_relabel (.names ρ) .nil
  rw [addConstant, addConstant, hadd, hold_rename]
  cases k.session.addConstant .nil <;> rfl

/-- Numbers have no names. -/
theorem loadNumber_rename (hk : Identifier.rename ρ k.session.previous.lexeme =
    k.session.previous.lexeme) : (k.rename ρ).loadNumber = k.loadNumber.rename ρ := by
  have hlexeme : (k.rename ρ).session.previous.lexeme = k.session.previous.lexeme := hk
  have hfail : (k.rename ρ).session.fail .invalidNumber =
      (k.session.fail .invalidNumber).relabel (.names ρ) := k.session.fail_relabel (.names ρ) _
  rw [loadNumber, loadNumber, hlexeme, hfail]
  cases Number.ofText? k.session.previous.lexeme with
  | some x => exact k.load_rename ρ (.number x)
  | none => rfl

/-- Renaming commutes with beginning a function. -/
theorem beginFunction_rename : (k.rename ρ).beginFunction = k.beginFunction.rename ρ := by
  have hstart : (FunctionState.start ⟨0⟩ .function).relabel (.names ρ) =
      FunctionState.start ⟨0⟩ .function := FunctionState.relabel_start (.names ρ) _ _
  have hpush : (k.session.functions.push (.start ⟨0⟩ .function)).relabel (.names ρ) =
      (k.session.functions.relabel (.names ρ)).push (.start ⟨0⟩ .function) :=
    congrArg (FunctionStack.mk · _) hstart
  exact congrArg (fun fs => Sketch.mk { (k.rename ρ).session with functions := fs }
    (⟨none, []⟩ :: (k.rename ρ).holdings) (k.rename ρ).finished) hpush.symm

/-- Renaming commutes with naming a function. -/
theorem nameFunction_rename : (k.rename ρ).nameFunction = k.nameFunction.rename ρ := by
  obtain ⟨session, holdings, finished⟩ := k
  cases holdings <;> rfl

/-- Renaming commutes with finishing a function. -/
theorem pop_rename (parent : FunctionState) (rest : List FunctionState) (p : Holdings)
    (ps : List Holdings) :
    (k.rename ρ).pop (parent.relabel (.names ρ)) (rest.map (FunctionState.relabel (.names ρ)))
      (p.rename ρ) (ps.map (Holdings.rename ρ)) = (k.pop parent rest p ps).rename ρ := by
  have hfinished : (k.rename ρ).finished ++
      [(FunctionOutline.of k.session.functions.current p).rename ρ] =
        (k.finished ++ [FunctionOutline.of k.session.functions.current p]).map
          (FunctionOutline.rename ρ) := by
    rw [List.map_append, List.map_singleton]
    rfl
  exact congrArg (Sketch.mk _ _) hfinished

/-- A function is finished under its new name, in the same place. -/
theorem endFunction_rename : (k.rename ρ).endFunction =
    k.endFunction.map fun r => (r.1, r.2.rename ρ) := by
  cases henclosing : k.session.functions.enclosing with
  | nil => simp [endFunction, rename, Session.relabel, FunctionStack.relabel, henclosing]
  | cons parent rest =>
      cases hholdings : k.holdings with
      | nil => simp [endFunction, rename, hholdings]
      | cons p ps =>
          have henclosing' : (k.rename ρ).session.functions.enclosing = parent.relabel (.names ρ) ::
              rest.map (FunctionState.relabel (.names ρ)) :=
            congrArg (List.map (FunctionState.relabel (.names ρ))) henclosing
          have hholdings' : (k.rename ρ).holdings = p.rename ρ :: ps.map (Holdings.rename ρ) :=
            congrArg (List.map (Holdings.rename ρ)) hholdings
          have hplace : (k.rename ρ).finished.length = k.finished.length := List.length_map ..
          have hadd : ((k.pop parent rest p ps).rename ρ).addConstant
              (.function k.finished.length) = _ :=
            (k.pop parent rest p ps).addConstant_rename ρ (.function k.finished.length)
          rw [endFunction_of_cons henclosing hholdings, endFunction_of_cons henclosing' hholdings',
            pop_rename, hplace, hadd, Option.map_map, Option.map_map]
          rfl

end Sketch

/-! ### Actions and runs -/

/-- What has an answer has not failed. -/
theorem eq_ok_of_toOption {ε α : Type} {x : Except ε α} {a : α} (h : x.toOption = some a) :
    x = .ok a := by
  cases x with
  | error e => cases h
  | ok b => exact congrArg _ (Option.some.inj h)

section

variable {β : Type} {k : Sketch}

/-- What an action does under other names is what it does, under other names. -/
theorem Action.sketch_rename (a : Action β) (hk : k.session.Throughout Token.Named) :
    a.sketch (k.rename ρ) = (a.sketch k).map fun r => (r.1, r.2.rename ρ) := by
  have hkind : (k.rename ρ).session.previous.kind = k.session.previous.kind := rfl
  by_cases ha : a.Makes
  · cases a with
    | loadNumber =>
        rw [sketch, sketch, hkind]
        by_cases hnumber : k.session.previous.kind = .number
        · rw [if_pos hnumber, if_pos hnumber, k.loadNumber_rename ρ
            (hk.previous.text_eq ρ (by rw [hnumber]; decide))]
          rfl
        · rw [if_neg hnumber, if_neg hnumber]
          rfl
    | loadString =>
        rw [sketch, sketch, hkind]
        by_cases hstring : k.session.previous.kind = .string
        · have hlexeme : (k.rename ρ).session.previous.lexeme = k.session.previous.lexeme :=
            hk.previous.text_eq ρ (by rw [hstring]; decide)
          rw [if_pos hstring, if_pos hstring, hlexeme]
          cases Session.unquote k.session.previous.lexeme with
          | error fault => rfl
          | ok text => exact congrArg (fun k => some ((), k)) (k.load_rename ρ (.literal text))
        · rw [if_neg hstring, if_neg hstring]
          rfl
    | nameConstant => exact k.addConstant_rename ρ (.name k.session.previous.lexeme)
    | beginFunction => exact congrArg (fun k => some ((), k)) (k.beginFunction_rename ρ)
    | nameFunction => exact congrArg (fun k => some ((), k)) (k.nameFunction_rename ρ)
    | endFunction => exact k.endFunction_rename ρ
    | _ => exact ha.elim
  · have happly : a.apply (k.rename ρ).session =
        (a.apply k.session).map fun r => (r.1, r.2.relabel (.names ρ)) :=
      a.apply_relabel (.names ρ) ha fun t ht herror =>
        (hk.upcoming t ht).text_eq ρ (by rw [herror]; decide)
    rw [sketch_of_not_makes ha, sketch_of_not_makes ha, happly]
    cases a.apply k.session <;> rfl

/-- The tokens of a sketch are those of a session. -/
theorem Action.throughout_sketch {P : Token → Prop} (heof : ∀ line, P (Token.eof line))
    {a : Action β} {b : β} {k' : Sketch} (hk : k.session.Throughout P)
    (h : a.sketch k = some (b, k')) : k'.session.Throughout P := by
  by_cases ha : a.Makes
  · have hadd {c : Origin} (k₀ : Sketch) {k₁ : Sketch} {index : UInt8}
        (hk₀ : k₀.session.Throughout P) (h : k₀.addConstant c = some (index, k₁)) :
        k₁.session.Throughout P := by
      rw [Sketch.addConstant, Option.map_eq_some_iff] at h
      obtain ⟨⟨index', s⟩, hs, h⟩ := h
      cases h
      exact hk₀.of_sameTokens (Session.sameTokens_addConstant (eq_ok_of_toOption hs))
    cases a with
    | loadNumber =>
        rw [sketch] at h
        split at h <;> cases h
        rw [Sketch.loadNumber]
        split
        · exact hk.of_sameTokens (Session.sameTokens_load ..)
        · exact hk.of_sameTokens (Session.sameTokens_report ..)
    | loadString =>
        rw [sketch] at h
        split at h
        · obtain ⟨text, -, h⟩ := Option.map_eq_some_iff.mp h
          cases h
          exact hk.of_sameTokens (Session.sameTokens_load ..)
        · cases h
    | nameConstant => exact hadd k hk h
    | beginFunction | nameFunction =>
        cases h
        exact ⟨hk.previous, hk.current, hk.upcoming⟩
    | endFunction =>
        cases henclosing : k.session.functions.enclosing with
        | nil => simp [sketch, Sketch.endFunction, henclosing] at h
        | cons parent rest =>
            cases hholdings : k.holdings with
            | nil => simp [sketch, Sketch.endFunction, hholdings] at h
            | cons p ps =>
                rw [sketch, Sketch.endFunction_of_cons henclosing hholdings,
                  Option.map_eq_some_iff] at h
                obtain ⟨⟨index, k₁⟩, hk₁, h⟩ := h
                cases h
                exact hadd (k.pop parent rest p ps) ⟨hk.previous, hk.current, hk.upcoming⟩ hk₁
    | _ => exact ha.elim
  · rw [sketch_of_not_makes ha, Option.map_eq_some_iff] at h
    obtain ⟨⟨b', s⟩, hs, h⟩ := h
    cases h
    exact a.throughout heof hk (eq_ok_of_toOption hs)

/-- What holds of all tokens of a sketch goes on to hold of them. -/
theorem CompileM.throughout_sketch {P : Token → Prop} (heof : ∀ line, P (Token.eof line))
    {α : Type} (m : CompileM α) {a : α} {k' : Sketch} (hk : k.session.Throughout P)
    (h : m.sketch k = some (a, k')) : k'.session.Throughout P := by
  induction m generalizing k k' with
  | done result =>
      cases result with
      | error fault => cases h
      | ok b =>
          cases h
          exact hk
  | ask q =>
      cases h
      exact hk
  | act action => exact action.throughout_sketch heof hk h
  | chain first next ihFirst ihNext =>
      rw [sketch] at h
      split at h
      next b k₁ hfirst => exact ihNext b (ihFirst hk hfirst) h
      next => cases h
  | part phrase body ih => exact ih hk h

/-- A run goes under other names as it went. -/
theorem CompileM.sketch_rename {α : Type} (m : CompileM α)
    (hk : k.session.Throughout Token.Named) :
    m.sketch (k.rename ρ) = (m.sketch k).map fun r => (r.1, r.2.rename ρ) := by
  induction m generalizing k with
  | done result => cases result <;> rfl
  | ask q => exact congrArg (fun b => some (b, k.rename ρ)) (q.answer_relabel (.names ρ) k.session)
  | act action => exact action.sketch_rename ρ hk
  | chain first next ihFirst ihNext =>
      rw [sketch, sketch, ihFirst hk]
      cases hfirst : first.sketch k with
      | none => rfl
      | some r => exact ihNext r.1 (first.throughout_sketch Token.named_eof hk hfirst)
  | part phrase body ih => exact ih hk

end

end LoxBytecode
