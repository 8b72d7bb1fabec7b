import LoxBytecode.Proofs.Walk.Statement

/-!
# Compiling a Program Walks

Functions, and statements by what they begin with. A function is walked with a code of its own,
which is put aside at its end: what it leaves behind is a closure. With that, each kind of
statement walks where the statements inside it do, and all do by induction on the budget
(`walksOn`). A program is followed up to the end of the source (`walks_declarations`).
-/

namespace LoxBytecode

namespace CompileM

variable {m : CompileM Unit} {ts ts₁ rest : List Token} {t name prev : Token}
  {code : List UInt8} {outer : List (List UInt8)} {w w' : Walk} {st : Stmt} {names : List String}
  {budget : Nat}

/-! ### Parameters -/

/-- A parameter is walked as one local more, which may be one too many. -/
theorem walks_parameter (hname : name.kind = .identifier) (hts : ts ≠ [])
    (hdepth : w.current.scope.depth ≠ 0) :
    parameter.Walks ⟨name :: ts, prev, code, outer⟩ w () ⟨ts, name, code, outer⟩
      (w.parameter name.lexeme) := by
  let counted := w.modify fun d => { d with arity := d.arity + 1 }
  have hcount : (act .countParameter).Walks ⟨name :: ts, prev, code, outer⟩ w ()
      ⟨name :: ts, prev, code, outer⟩ counted := .of_ok rfl rfl
  have hdemand : w.current.arity + 1 > 255 ↔ ¬ (Demand.parameter (w.current.arity + 1)).Met :=
    Nat.not_le.symm
  refine hcount.bind (.step rfl (.demandThen (p := .tooManyParameters) hdemand trivial rfl ?_
    fun _ => ?_))
  · exact (Walk.precedes_declare _ _).trans (.of_eq rfl)
  · let asked := counted.ask (.parameter (w.current.arity + 1))
    have hdeclared : asked.newName name.lexeme = (0, asked.declare name.lexeme) := if_neg hdepth
    have hbound : (asked.declare name.lexeme).bind 0 =
        ⟨[], (asked.declare name.lexeme).modifyScope Scope.define⟩ := if_neg hdepth
    have hparse : (parseVariable "parameter name").Walks ⟨name :: ts, prev, code, outer⟩ asked
        _ _ _ := walks_parseVariable hname hts
    have hdefine : (defineVariable 0).Walks ⟨ts, name, code, outer⟩ (asked.declare name.lexeme) ()
        _ _ := walks_defineVariable 0
    rw [hdeclared] at hparse
    rw [hbound] at hdefine
    exact hparse.bind (hdefine.of_code (List.append_nil _))

/-- Declaring and defining a local changes no depth. -/
theorem depth_define_declare (Γ : Scope) (name : String) :
    (Γ.declare name).define.depth = Γ.depth := by
  obtain ⟨locals, depth⟩ := Γ
  cases depth <;> rfl

/-- A parameter changes no depth. -/
theorem depth_parameter (w : Walk) (name : String) :
    (w.parameter name).current.scope.depth = w.current.scope.depth :=
  depth_define_declare w.current.scope name

/-- Parameters are compiled as they are walked, in order. -/
theorem compiles_parameters (h : ReadsParameters ts names rest) (hrest : rest ≠ [])
    (hdepth : w.current.scope.depth ≠ 0) :
    (parameters budget).Compiles ⟨ts, prev, code, outer⟩ w rest
      ⟨[], names.foldl Walk.parameter w⟩ := by
  induction budget generalizing ts names prev w with
  | zero => exact ⟨prev, .of_fault (Walk.precedes_parameters ..) rfl⟩
  | succ budget ih =>
      cases h with
      | @last name _ hname hcomma =>
          refine ⟨name, (walks_parameter hname hrest hdepth).bind ?_⟩
          refine .step (follow_accept_false hcomma) ?_
          exact walks_pure.of_code (List.append_nil _).symm
      | @more name comma ts _ names hname hcomma hothers =>
          have hts := ne_nil_of_suffix hrest hothers.suffix
          obtain ⟨prev', hmore⟩ := ih (w := w.parameter name.lexeme) hothers
            (by rwa [depth_parameter])
          refine ⟨prev', (walks_parameter hname (List.cons_ne_nil _ _) hdepth).bind ?_⟩
          exact .step (follow_accept_true hcomma hts) hmore

/-! ### Functions -/

/-- Captures that fit are written as two bytes each. -/
theorem eq_of_captureBytes {cs : List Capture} {bytes : List UInt8}
    (h : captureBytes cs = .ok bytes) : bytes = cs.flatMap Capture.bytes := by
  induction cs generalizing bytes with
  | nil =>
      cases h
      rfl
  | cons c cs ih =>
      obtain ⟨index, hindex, h⟩ := bind_eq_ok.mp h
      obtain ⟨others, hothers, h⟩ := bind_eq_ok.mp h
      cases h
      rw [List.flatMap_cons, ← ih hothers, Capture.bytes, eq_of_narrow hindex]
      rfl

/-- A function ends as it is walked: as a constant of the one around it. -/
theorem walks_endFunction {body : List UInt8} :
    (act .endFunction).Walks ⟨ts, prev, body, code :: outer⟩ w
      ((w.pop.2.short .function).1, w.pop.1) ⟨ts, prev, code, outer⟩
      (w.pop.2.short .function).2 := by
  obtain ⟨⟨current, around⟩, demands⟩ := w
  cases around with
  | nil => exact .of_fault (Walk.precedes_short ..) rfl
  | cons d ds =>
      have hfollow : (act .endFunction).follow
          (Site.stage ⟨ts, prev, body, code :: outer⟩ ⟨⟨current, d :: ds⟩, demands⟩) =
            (Site.stage ⟨ts, prev, code, outer⟩ ⟨⟨d, ds⟩, demands⟩).short .function >>=
              fun closed => .ok ((closed.1, current.captures.map (captureOf d.captures)),
                closed.2) := rfl
      refine .of_demand (.chunk .tooManyConstants) rfl trivial (fun hmet => ?_)
        fun hunmet => ⟨prev :: ts, ?_⟩
      · rw [hfollow, Stage.short]
        exact congrArg (· >>= _) (if_pos hmet)
      · rw [hfollow, Stage.short]
        exact congrArg (· >>= _) (if_neg hunmet)

/-- A function is compiled as its signature and its body are walked. -/
theorem compiles_function (hdeclaration : m.WalksOn .declaration) {opening : Token}
    (hsignature : ReadsSignature ts names (opening :: ts₁)) (hopening : opening.kind = .leftBrace)
    (hbody : ReadsStmt .block ts₁ st rest) (hrest : rest ≠ []) :
    (function m budget).Compiles ⟨ts, prev, code, outer⟩ w rest
      (st.walk (names.foldl Walk.parameter (w.push.modifyScope Scope.enter))).after.closure := by
  let start := w.push.modifyScope Scope.enter
  have hts₁ := ne_nil_of_suffix hrest hbody.suffix
  obtain ⟨prev', hblock⟩ := compiles_block (w := names.foldl Walk.parameter start) hdeclaration hbody hrest
  have hend {t prev₁ : Token} (ht : t.kind = .rightParen) :
      (expect .rightParen "')' after parameters" >>= fun _ =>
        expect .leftBrace "'\x7b' before function body" >>= fun _ => block m budget >>= fun _ =>
        emitReturn >>= fun _ => act .endFunction >>= fun closed =>
        liftM (captureBytes closed.2) >>= fun bytes => emit .closure (closed.1 :: bytes)).Walks
        ⟨t :: opening :: ts₁, prev₁, [], code :: outer⟩ (names.foldl Walk.parameter start) ()
        ⟨rest, prev', code ++ (st.walk (names.foldl Walk.parameter start)).after.closure.code,
          outer⟩ (st.walk (names.foldl Walk.parameter start)).after.closure.after := by
    refine .step (follow_expect ht (List.cons_ne_nil _ _)) ?_
    refine .step (follow_expect hopening hts₁) (hblock.bind ((walks_emitAll _).bind ?_))
    refine walks_endFunction.bind (.liftM (.refl _) fun bytes hbytes => ?_)
    rw [eq_of_captureBytes hbytes]
    exact walks_emit _ _
  have hbegin : (act .beginFunction).Walks ⟨ts, prev, code, outer⟩ w ()
      ⟨ts, prev, [], code :: outer⟩ w.push := .of_ok rfl rfl
  refine ⟨prev', hbegin.bind (.step rfl (walks_beginScope.bind ?_))⟩
  cases hsignature with
  | @none left right _ hleft hright =>
      have hnext (A : Stage) (hA : A.tokens = right :: opening :: ts₁) :
          (nextIs .rightParen).follow A = .ok (true, A) := by
        rw [follow_nextIs, hA, kindOf_cons, hright]
        rfl
      refine .step (follow_expect hleft (List.cons_ne_nil _ _)) (.step (hnext _ rfl) ?_)
      exact hend hright
  | @some left right ts _ _ hleft hparameters hright =>
      have hnext (A : Stage) (hA : A.tokens = ts) :
          (nextIs .rightParen).follow A = .ok (false, A) := by
        have hne : kindOf ts ≠ .rightParen := by
          cases hparameters with
          | last hname | more hname => rw [kindOf_cons, hname]; decide
        rw [follow_nextIs, hA, beq_false_of_ne hne]
      have hts := ne_nil_of_suffix (List.cons_ne_nil _ _) hparameters.suffix
      obtain ⟨prev₁, hwalks⟩ := compiles_parameters (w := start) hparameters (List.cons_ne_nil _ _)
        (Nat.succ_ne_zero _)
      refine .step (follow_expect hleft hts) (.step (hnext _ rfl) (hwalks.bind ?_))
      exact hend hright

/-- A function declaration is compiled as it is walked. -/
theorem compiles_funDeclaration (hdeclaration : m.WalksOn .declaration) {opening : Token}
    (hname : name.kind = .identifier) (hsignature : ReadsSignature ts names (opening :: ts₁))
    (hopening : opening.kind = .leftBrace) (hbody : ReadsStmt .block ts₁ st rest)
    (hrest : rest ≠ []) :
    (funDeclaration m budget).Compiles ⟨name :: ts, prev, code, outer⟩ w rest
      ((Stmt.funDecl name.lexeme names st).walk w) := by
  have hts := ne_nil_of_suffix (List.cons_ne_nil _ _) hsignature.suffix
  obtain ⟨prev', hfunction⟩ := compiles_function (w := (w.newName name.lexeme).2.modifyScope Scope.define) hdeclaration
    hsignature hopening hbody hrest
  refine ⟨prev', (walks_parseVariable hname hts).bind (walks_markInitialized.bind ?_)⟩
  refine hfunction.bind ((walks_defineVariable _).of_code ?_)
  exact List.append_assoc ..

/-! ### Statements -/

/-- A statement is compiled as it is walked, if the statements inside it are. -/
theorem walksOn_statement (hstatement : (statement budget).WalksOn .statement)
    (hdeclaration : (declaration budget).WalksOn .declaration) :
    (statement (budget + 1)).WalksOn .statement := by
  intro ts rest st h hrest prev code outer w
  have hno {k : TokenKind} (hk : kindOf ts ≠ k) : (accept k).follow
      (Site.stage ⟨ts, prev, code, outer⟩ w) = .ok (false, Site.stage ⟨ts, prev, code, outer⟩ w) :=
    follow_accept_false hk
  -- the words that begin a statement are tried one by one
  cases h with
  | @print t ts _ _ ht hvalue =>
      have hts := ne_nil_of_suffix hrest hvalue.suffix
      obtain ⟨prev', hwalks⟩ := compiles_printStatement hvalue hrest
      exact ⟨prev', .part (.step (follow_accept_true ht hts) hwalks)⟩
  | @del t object dot property semicolon _ ht hobject hdot hproperty hsemicolon =>
      obtain ⟨prev', hwalks⟩ := compiles_delStatement hobject hdot hproperty
        hsemicolon hrest
      have hkind {k : TokenKind} (hk : k ≠ .delWord) : t.kind ≠ k := ht ▸ hk.symm
      exact ⟨prev', .part (.step (hno (hkind (by decide)))
        (.step (follow_accept_true ht (List.cons_ne_nil _ _)) hwalks))⟩
  | @ret t ts _ _ ht hvalue =>
      have hts := ne_nil_of_suffix hrest hvalue.suffix
      obtain ⟨prev', hwalks⟩ := compiles_returnStatement hvalue hrest
      have hkind {k : TokenKind} (hk : k ≠ .returnWord) : t.kind ≠ k := ht ▸ hk.symm
      exact ⟨prev', .part (.step (hno (hkind (by decide))) (.step (hno (hkind (by decide)))
        (.step (follow_accept_true ht hts) hwalks)))⟩
  | @branch t opening ts ts₁ _ _ _ ht hopening hcondition hyes hno' =>
      obtain ⟨prev', hwalks⟩ := compiles_ifStatement hstatement hopening
        hcondition hyes (.none hno') hrest hrest
      have hkind {k : TokenKind} (hk : k ≠ .ifWord) : t.kind ≠ k := ht ▸ hk.symm
      exact ⟨prev', .part (.step (hno (hkind (by decide))) (.step (hno (hkind (by decide)))
        (.step (hno (hkind (by decide)))
          (.step (follow_accept_true ht (List.cons_ne_nil _ _)) hwalks))))⟩
  | @branchElse t opening other ts ts₁ ts₂ _ _ _ _ ht hopening hcondition hyes hother hno' =>
      obtain ⟨prev', hwalks⟩ := compiles_ifStatement hstatement hopening
        hcondition hyes (.some rfl hother hno') (List.cons_ne_nil _ _) hrest
      have hkind {k : TokenKind} (hk : k ≠ .ifWord) : t.kind ≠ k := ht ▸ hk.symm
      exact ⟨prev', .part (.step (hno (hkind (by decide))) (.step (hno (hkind (by decide)))
        (.step (hno (hkind (by decide)))
          (.step (follow_accept_true ht (List.cons_ne_nil _ _)) hwalks))))⟩
  | @whileLoop t opening ts ts₁ _ _ _ ht hopening hcondition hbody =>
      obtain ⟨prev', hwalks⟩ := compiles_whileStatement hstatement hopening
        hcondition hbody hrest
      have hkind {k : TokenKind} (hk : k ≠ .whileWord) : t.kind ≠ k := ht ▸ hk.symm
      exact ⟨prev', .part (.step (hno (hkind (by decide))) (.step (hno (hkind (by decide)))
        (.step (hno (hkind (by decide))) (.step (hno (hkind (by decide)))
          (.step (follow_accept_true ht (List.cons_ne_nil _ _)) hwalks)))))⟩
  | @forLoop t opening ts _ _ _ _ _ _ _ _ ht hopening hfirst hcondition hstep hbody =>
      obtain ⟨prev', hwalks⟩ := compiles_forStatement hstatement hopening
        hfirst hcondition hstep hbody hrest
      have hkind {k : TokenKind} (hk : k ≠ .forWord) : t.kind ≠ k := ht ▸ hk.symm
      exact ⟨prev', .part (.step (hno (hkind (by decide))) (.step (hno (hkind (by decide)))
        (.step (hno (hkind (by decide))) (.step (hno (hkind (by decide)))
          (.step (hno (hkind (by decide)))
            (.step (follow_accept_true ht (List.cons_ne_nil _ _)) hwalks))))))⟩
  | @block t ts _ _ ht hbody =>
      have hts := ne_nil_of_suffix hrest hbody.suffix
      obtain ⟨prev', hwalks⟩ := compiles_blockStatement hdeclaration hbody hrest
      have hkind {k : TokenKind} (hk : k ≠ .leftBrace) : t.kind ≠ k := ht ▸ hk.symm
      exact ⟨prev', .part (.step (hno (hkind (by decide))) (.step (hno (hkind (by decide)))
        (.step (hno (hkind (by decide))) (.step (hno (hkind (by decide)))
          (.step (hno (hkind (by decide))) (.step (hno (hkind (by decide)))
            (.step (follow_accept_true ht hts) hwalks)))))))⟩
  | @expression _ _ e hexpression =>
      obtain ⟨prev', hwalks⟩ := compiles_expressionStatement hexpression hrest
      have hkind {k : TokenKind} (hk : k.rule.atStart = none) : kindOf ts ≠ k := by
        obtain ⟨hreads, -⟩ := hexpression
        rintro rfl
        exact hreads.atStart hk
      exact ⟨prev', .part (.step (hno (hkind rfl)) (.step (hno (hkind rfl)) (.step (hno (hkind rfl))
        (.step (hno (hkind rfl)) (.step (hno (hkind rfl)) (.step (hno (hkind rfl))
          (.step (hno (hkind rfl)) hwalks)))))))⟩

/-- A declaration is compiled as it is walked, if the declarations inside it are. -/
theorem walksOn_declaration (hstatement : (statement budget).WalksOn .statement)
    (hdeclaration : (declaration budget).WalksOn .declaration) :
    (declaration (budget + 1)).WalksOn .declaration := by
  intro ts rest st h hrest prev code outer w
  have hno {k : TokenKind} (hk : kindOf ts ≠ k) : (accept k).follow
      (Site.stage ⟨ts, prev, code, outer⟩ w) = .ok (false, Site.stage ⟨ts, prev, code, outer⟩ w) :=
    follow_accept_false hk
  -- there is nothing to recover from
  have hrecover {m : CompileM Unit} {x y : Site} {w w' : Walk} (hm : m.Walks x w () y w') :
      (m >>= fun _ => isRecovering >>= fun recovering =>
        if recovering = true then synchronize budget else pure ()).Walks x w () y w' :=
    hm.bind (.step rfl walks_pure)
  cases h with
  | @varDecl t ts _ _ ht hvar =>
      have hts := ne_nil_of_suffix hrest hvar.suffix
      obtain ⟨prev', hwalks⟩ := compiles_varDeclaration hvar hrest
      have hkind {k : TokenKind} (hk : k ≠ .varWord) : t.kind ≠ k := ht ▸ hk.symm
      exact ⟨prev', .part (.step (hno (hkind (by decide))) (.step (hno (hkind (by decide)))
        (.step (follow_accept_true ht hts) (hrecover hwalks))))⟩
  | @classDecl t name opening closing _ ht hname hopening hclosing =>
      obtain ⟨prev', hwalks⟩ := compiles_classDeclaration hname hopening hclosing hrest
      exact ⟨prev', .part (.step (follow_accept_true ht (List.cons_ne_nil _ _))
        (hrecover hwalks))⟩
  | @funDecl t name opening ts ts₁ _ _ _ ht hname hsignature hopening hbody =>
      obtain ⟨prev', hwalks⟩ := compiles_funDeclaration hdeclaration hname
        hsignature hopening hbody hrest
      have hkind {k : TokenKind} (hk : k ≠ .funWord) : t.kind ≠ k := ht ▸ hk.symm
      exact ⟨prev', .part (.step (hno (hkind (by decide)))
        (.step (follow_accept_true ht (List.cons_ne_nil _ _)) (hrecover hwalks)))⟩
  | statement h =>
      obtain ⟨prev', hwalks⟩ := hstatement h hrest prev code outer w
      obtain ⟨t, ts', rfl⟩ := List.exists_cons_of_ne_nil (ne_nil_of_suffix hrest h.suffix)
      obtain ⟨hvar, hclass, hfun⟩ := h.kind_ne
      exact ⟨prev', .part (.step (hno hclass) (.step (hno hfun) (.step (hno hvar)
        (hrecover hwalks))))⟩

/-- Statements and declarations are compiled as they are walked, by induction on the budget. -/
theorem walksOn (budget : Nat) : (statement budget).WalksOn .statement ∧
    (declaration budget).WalksOn .declaration := by
  induction budget with
  | zero => exact ⟨fun _ _ prev _ _ _ => ⟨prev, .of_fault (Stmt.precedes_walk ..) rfl⟩,
      fun _ _ prev _ _ _ => ⟨prev, .of_fault (Stmt.precedes_walk ..) rfl⟩⟩
  | succ budget ih =>
      obtain ⟨hstatement, hdeclaration⟩ := ih
      exact ⟨walksOn_statement hstatement hdeclaration, walksOn_declaration hstatement hdeclaration⟩

/-! ### Programs -/

/-- The end of the source is passed too. -/
theorem walks_declarationsLoop {n : Nat} {e : Token} (he : e.kind = .eof)
    (h : ReadsStmt .program ts st []) :
    (declarations.loop budget n).Walks ⟨ts ++ [e], prev, code, outer⟩ w ()
      ⟨[], e, code ++ (st.walk w).code, outer⟩ (st.walk w).after := by
  induction n generalizing ts st prev code w with
  | zero => exact .of_fault (Stmt.precedes_walk ..) rfl
  | succ n ih =>
      cases h with
      | programEnd =>
          have hend : (accept .eof).follow (Site.stage ⟨[e], prev, code, outer⟩ w) =
              .ok (true, Site.stage ⟨[], e, code, outer⟩ w) := by
            rw [accept, follow_bind, follow_nextIs]
            refine (follow_ite ..).trans ((if_pos (beq_iff_eq.mpr he)).trans ?_)
            rw [follow_bind, advance, follow_act, Action.applyAt, Stage.advance]
            simp only [Site.stage, if_pos he]
            rfl
          exact .of_code (.step hend walks_pure) (List.append_nil _).symm
      | @programMore _ ts₁ _ st body _ hfirst hothers =>
          have hmore : kindOf (ts ++ [e]) ≠ .eof := by
            rw [kindOf_append (z := [e]) he]
            exact hfirst.kindOf_declaration.2.2
          obtain ⟨prev', hst⟩ := (walksOn budget).2 (hfirst.append (by decide) (z := [e]) he)
            (List.append_ne_nil_of_right_ne_nil _ (List.cons_ne_nil _ _)) prev code outer w
          refine .step (follow_accept_false hmore) (hst.bind ?_)
          exact (ih hothers).of_code (List.append_assoc ..)

/-- The declarations of a program are compiled as they are walked, up to the end of the source. -/
theorem walks_declarations {e : Token} (he : e.kind = .eof) (h : ReadsStmt .program ts st []) :
    (declarations budget).Walks ⟨ts ++ [e], prev, code, outer⟩ w ()
      ⟨[], e, code ++ (st.walk w).code, outer⟩ (st.walk w).after :=
  walks_declarationsLoop he h

end CompileM

end LoxBytecode
