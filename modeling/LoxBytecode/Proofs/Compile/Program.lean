import LoxBytecode.Proofs.Compile.Function

/-!
# Compiling Programs

The forms of statements and declarations tied together by an induction on the budget
(`translating`): whatever is compiled without diagnostics reads a statement and writes its code,
up to the declarations of a whole source (`Yields.loop`).
-/

namespace LoxBytecode

open Heap

namespace CompileM

variable {s t u : Session} {τ : List Event} {a : Unit} {st : Stmt} {is : List Item}
  {part : StmtPart} {statement declaration : CompileM Unit}

/-! ### Statements and declarations -/

/-- What was read behind a token that was passed was read from that token on. -/
theorem TranslatesStmt.of_passes (hpasses : s.Passes u)
    (h : TranslatesStmt part (u.previous :: u.remaining) u τ st is t) :
    TranslatesStmt part s.remaining s τ st is t where
  reads := by
    rw [hpasses.remaining, ← hpasses.previous]
    exact h.reads
  code := hpasses.scope ▸ h.code
  closes := hpasses.scope ▸ h.closes
  wrote := by simpa using hpasses.wrote.trans h.wrote

/-- The beginning and the end of a part are happenings, and items, around what it translates
to. -/
theorem TranslatesStmt.marked (h : TranslatesStmt part s.remaining s τ st is t)
    (hs : s.Orderly) (ht : t.Orderly) (phrase : Phrase) :
    TranslatesStmt part s.remaining s
      (s.event (.begins phrase) :: τ ++ [t.event (.ends phrase)]) st
      (s.scope.mark (.begins phrase) :: is ++ [t.scope.mark (.ends phrase)]) t where
  reads := h.reads
  code := .marked phrase h.code
  closes := h.closes.marked phrase
  wrote := h.wrote.marked hs ht phrase

/-- A function declaration translates to the closure and the binding of its name. -/
theorem Yields.funDeclaration (hdeclaration : TranslatingDeclaration declaration) {budget : Nat}
    (h : (CompileM.funDeclaration declaration budget).Yields s a τ t)
    (hkind : s.previous.kind = .funWord) :
    ∃ st is, TranslatesStmt .declaration (s.previous :: s.remaining) s τ st is t := by
  obtain ⟨i, s₁, τ₁, τ₂, hname, hrest₁, rfl⟩ := Yields.bind h
  obtain ⟨hident, hwrote₁, -, hremaining, hplace⟩ := hname.parseVariable
  obtain ⟨_, s₂, τ₃, τ₄, hmark, hrest₂, rfl⟩ := hrest₁.bind
  obtain ⟨hwrote₂, hscope₂, htokens₂⟩ := hmark.markInitialized
  obtain ⟨_, s₃, τ₅, τ₆, hfunction, hdefine, rfl⟩ := hrest₂.bind
  obtain ⟨names, opening, ts, body, k, pairs, hsignature, hbrace, hblock, hsame, hmade,
    hcloses, hwrote₃⟩ := hfunction.function hdeclaration
  obtain ⟨htokens₃, hdefined⟩ := hdefine.defineVariable
  rw [htokens₂.remaining] at hsignature
  rw [← htokens₃.remaining] at hblock
  rw [hremaining]
  have hreads : ReadsStmt .declaration (s.previous :: s.current :: s₁.remaining)
      (.funDecl s.current.lexeme names body) t.remaining :=
    .funDecl hkind hident hsignature hbrace hblock
  have hbefore := hwrote₁.trans (hwrote₂.trans hwrote₃)
  rw [hscope₂] at hsame hcloses
  rcases hplace with ⟨hdepth, hscope₁, htext⟩ | ⟨hdepth, hscope₁, hroom⟩
  · rw [hscope₁, Scope.define_of_depth_eq_zero hdepth] at hsame hcloses
    obtain ⟨-, hwrote₄, hscope₄⟩ | ⟨hcontra, -, -⟩ := hdefined
    · have hst : StmtCode (World.of t) s.scope (.funDecl s.current.lexeme names body)
          [s₃.scope.op .closure (k :: pairs), s₃.scope.op .defineGlobal [i]] t.scope := by
        obtain ⟨hmakes, hbody, hcode⟩ := hmade.mono hwrote₄.le
        rw [hscope₄]
        exact .funGlobal hdepth (htext.mono (hwrote₂.le.trans (hwrote₃.le.trans hwrote₄.le)))
          hsame hmakes hbody hcode
      refine ⟨_, _, hreads, hst, ?_, by simpa using hbefore.trans hwrote₄⟩
      rw [hscope₄] at hst ⊢
      exact (hcloses.mono hwrote₄.le).closes (.nil _) (.one (by decide)) hst
    · exact absurd (hsame.depth.trans hdepth) hcontra
  · rw [hscope₁] at hsame hcloses
    obtain ⟨hcontra, -, -⟩ | ⟨-, hwrote₄, hscope₄⟩ := hdefined
    · have hextends := Scope.extends_define_declare s.scope hdepth s.current.lexeme
      exact absurd (hextends.depth.symm.trans (hsame.depth.symm.trans hcontra)) hdepth
    · rw [Scope.define_of_same hdepth hsame] at hscope₄
      have hst : StmtCode (World.of t) s.scope (.funDecl s.current.lexeme names body)
          [s₃.scope.op .closure (k :: pairs)] t.scope := by
        obtain ⟨hmakes, hbody, hcode⟩ := hmade.mono hwrote₄.le
        rw [hscope₄]
        exact .funLocal hdepth hroom hsame hmakes hbody hcode
      refine ⟨_, _, hreads, hst, ?_, by simpa using hbefore.trans hwrote₄⟩
      rw [hscope₄] at hst ⊢
      exact (hcloses.mono hwrote₄.le).closes (.declare _) .nil hst

/-- A form that its first token announces, or the forms that are left. -/
theorem Yields.acceptThen {kind : TokenKind} {yes no : CompileM Unit}
    (h : (CompileM.accept kind >>= fun b => if b = true then yes else no).Yields s a τ t)
    (hkind : kind ≠ .eof) :
    (∃ u, s.Passes u ∧ u.previous.kind = kind ∧ yes.Yields u a τ t) ∨ no.Yields s a τ t := by
  obtain ⟨b, u, τ₁, τ₂, haccept, hrest, rfl⟩ := Yields.bind h
  obtain ⟨rfl, ⟨rfl, hcurrent, hpasses⟩ | ⟨rfl, -, rfl⟩⟩ := haccept.accept_passes hkind
  · exact Or.inl ⟨u, hpasses, hpasses.previous ▸ hcurrent, hrest⟩
  · exact Or.inr hrest

/-- A statement whose first token was passed. -/
theorem statement_of_passes (hpasses : s.Passes u)
    (h : ∃ st is, TranslatesStmt .statement (u.previous :: u.remaining) u τ st is t ∧
      u.scope.Same t.scope) :
    ∃ st is, TranslatesStmt .statement s.remaining s τ st is t ∧ s.scope.Same t.scope := by
  obtain ⟨st, is, htranslates, hsame⟩ := h
  exact ⟨st, is, htranslates.of_passes hpasses, hpasses.scope ▸ hsame⟩

/-- A form that leaves the scope as it was leaves the same scope. -/
theorem same_of_eq
    (h : ∃ st is, TranslatesStmt part (s.previous :: s.remaining) s τ st is t ∧
      t.scope = s.scope) :
    ∃ st is, TranslatesStmt part (s.previous :: s.remaining) s τ st is t ∧
      s.scope.Same t.scope := by
  obtain ⟨st, is, htranslates, hscope⟩ := h
  exact ⟨st, is, htranslates, hscope ▸ .refl _⟩

/-- Nothing has to be recovered from. -/
theorem Yields.recovered {budget : Nat} {body : CompileM Unit}
    (h : (body >>= fun _ => isRecovering >>= fun b =>
      if b = true then synchronize budget else Pure.pure ()).Yields s a τ t) :
    ∃ b, body.Yields s b τ t := by
  obtain ⟨b, u, τ₁, τ₂, hbody, hrest, rfl⟩ := Yields.bind h
  obtain ⟨recovering, v, τ₃, τ₄, hask, hthen, rfl⟩ := hrest.bind
  obtain ⟨rfl, rfl, rfl⟩ := hask.ask
  have halert : Query.answer u .recovering = false := hbody.after.alert
  rw [halert] at hthen
  obtain ⟨-, rfl, rfl⟩ := Yields.pure hthen
  exact ⟨b, by simpa using hbody⟩

/-- A declaration whose first token was passed. -/
theorem declaration_of_passes (hpasses : s.Passes u)
    (h : ∃ st is, TranslatesStmt .declaration (u.previous :: u.remaining) u τ st is t) :
    ∃ st is, TranslatesStmt .declaration s.remaining s τ st is t := by
  obtain ⟨st, is, htranslates⟩ := h
  exact ⟨st, is, htranslates.of_passes hpasses⟩

/-- Statements and declarations translate what they read, by induction on the budget of both. -/
theorem translating (budget : Nat) :
    TranslatingStatement (CompileM.statement budget) ∧
      TranslatingDeclaration (CompileM.declaration budget) := by
  induction budget with
  | zero => exact ⟨fun h _ => (Yields.fault h).elim, fun h _ => (Yields.fault h).elim⟩
  | succ budget ih =>
      obtain ⟨hstatement, hdeclaration⟩ := ih
      refine ⟨fun {s t τ a} h hs => ?_, fun {s t τ a} h hs => ?_⟩
      · rw [CompileM.statement] at h
        obtain ⟨τ', hinner, rfl⟩ := h.part
        have hform : ∃ st is, TranslatesStmt .statement s.remaining s τ' st is t ∧
            s.scope.Same t.scope := by
          rcases hinner.acceptThen (by decide) with ⟨u, hpasses, hkind, hform⟩ | hrest
          · exact statement_of_passes hpasses (same_of_eq (hform.printStatement hkind))
          rcases hrest.acceptThen (by decide) with ⟨u, hpasses, hkind, hform⟩ | hrest
          · exact statement_of_passes hpasses (same_of_eq (hform.delStatement hkind))
          rcases hrest.acceptThen (by decide) with ⟨u, hpasses, hkind, hform⟩ | hrest
          · exact statement_of_passes hpasses (same_of_eq (hform.returnStatement hkind))
          rcases hrest.acceptThen (by decide) with ⟨u, hpasses, hkind, hform⟩ | hrest
          · exact statement_of_passes hpasses
              (hform.ifStatement hstatement (hpasses.scope ▸ hs) hkind)
          rcases hrest.acceptThen (by decide) with ⟨u, hpasses, hkind, hform⟩ | hrest
          · exact statement_of_passes hpasses
              (hform.whileStatement hstatement (hpasses.scope ▸ hs) hkind)
          rcases hrest.acceptThen (by decide) with ⟨u, hpasses, hkind, hform⟩ | hrest
          · exact statement_of_passes hpasses
              (hform.forStatement hstatement (hpasses.scope ▸ hs) hkind)
          rcases hrest.acceptThen (by decide) with ⟨u, hpasses, hkind, hform⟩ | hrest
          · exact statement_of_passes hpasses
              (hform.blockStatement hdeclaration (hpasses.scope ▸ hs) hkind)
          obtain ⟨e, is, hreads, hcode, hwrote, hscope⟩ := hrest.expressionStatement
          exact ⟨_, is, .of_simple (.expression hreads) hcode trivial hwrote, hscope ▸ .refl _⟩
        obtain ⟨st, is, htranslates, hsame⟩ := hform
        exact ⟨st, _, htranslates.marked h.before.orderly h.after.orderly _, hsame⟩
      · rw [CompileM.declaration] at h
        obtain ⟨τ', hinner, rfl⟩ := h.part
        have hform : ∃ st is, TranslatesStmt .declaration s.remaining s τ' st is t := by
          rcases hinner.acceptThen (by decide) with ⟨u, hpasses, hkind, hform⟩ | hrest
          · obtain ⟨_, hform⟩ := hform.recovered
            exact declaration_of_passes hpasses (hform.classDeclaration hkind)
          rcases hrest.acceptThen (by decide) with ⟨u, hpasses, hkind, hform⟩ | hrest
          · obtain ⟨_, hform⟩ := hform.recovered
            exact declaration_of_passes hpasses (hform.funDeclaration hdeclaration hkind)
          rcases hrest.acceptThen (by decide) with ⟨u, hpasses, hkind, hform⟩ | hrest
          · obtain ⟨_, hform⟩ := hform.recovered
            obtain ⟨st, is, hreads, hcode, hwrote⟩ := hform.varDeclaration
            exact declaration_of_passes hpasses
              ⟨st, is, .of_simple (.varDecl hkind hreads) hcode hreads.simple hwrote⟩
          · obtain ⟨_, hform⟩ := hrest.recovered
            obtain ⟨st, is, ⟨hreads, hcode, hcloses, hwrote⟩, -⟩ := hstatement hform hs
            exact ⟨st, is, .statement hreads, hcode, hcloses, hwrote⟩
        obtain ⟨st, is, htranslates⟩ := hform
        exact ⟨st, _, htranslates.marked h.before.orderly h.after.orderly _⟩

/-! ### Sources -/

/-- The declarations up to the end of the source translate to those of the program. -/
theorem Yields.loop {budget left : Nat}
    (h : (CompileM.declarations.loop budget left).Yields s a τ t) (hs : s.scope.Settled) :
    t.remaining = [] ∧ ∃ st is, TranslatesStmt .program s.remaining s τ st is t := by
  induction left generalizing s τ with
  | zero => exact h.fault.elim
  | succ left ih =>
      obtain ⟨b, u, τ₁, τ₂, haccept, hrest, rfl⟩ := Yields.bind h
      obtain ⟨rfl, ⟨rfl, heof, rfl⟩ | ⟨rfl, hmore, rfl⟩⟩ := haccept.accept
      · obtain ⟨-, rfl, rfl⟩ := Yields.pure hrest
        have hadvance : CompileM.advance.Yields s () [] s.advance :=
          ⟨haccept.before, rfl, trace_advance s, haccept.after⟩
        obtain ⟨hwrote, hscope⟩ := Wrote.advance hadvance
        have hend : s.advance.remaining = [] := by
          rw [haccept.before.orderly.onTrack.remaining_advance, Session.remaining_of_eof heof]
          rfl
        refine ⟨hend, .skip, [], .of_simple ?_ ?_ trivial hwrote⟩
        · rw [Session.remaining_of_eof heof, hend]
          exact .programEnd
        · rw [hscope]
          exact .skip _
      · obtain ⟨_, u, τ₃, τ₄, hfirst, hthen, rfl⟩ := Yields.bind hrest
        obtain ⟨st, is, hreads, hcode, hcloses, hwrote⟩ := (translating budget).2 hfirst hs
        obtain ⟨hend, body, is', hreads', hcode', hcloses', hwrote'⟩ :=
          ih hthen ((hcode.extends hs).settled hs)
        refine ⟨hend, _, is ++ is', .programMore ?_ hreads hreads',
          .seq (hcode.mono hwrote'.le) hcode', .seq (hcloses.mono hwrote'.le) hcloses',
          hwrote.trans hwrote'⟩
        rw [Session.remaining_of_ne_eof hmore]
        exact List.cons_ne_nil _ _

end CompileM

end LoxBytecode
