import MustacheJsx.Proofs.Conversion.Arguments

/-!
# What conversion keeps of content

A statement inside a template is found again in the code: as a term, or as children among those of
an element. So are the arguments of its calls. Two things are lost: the inverse of a link, and the
named arguments of a mustache that has no others.
-/

namespace MustacheJsx

section

variable {notes : Annotations}

/-! ### Statements -/

/-- A statement is converted, and what it becomes occurs in a part. -/
def Statement.Found (notes : Annotations) (statement : Statement) (whole : Jsx.Part) : Prop :=
  ∃ converted, statement.convert notes = .ok converted ∧ converted.OccursIn whole

theorem Statement.Found.trans {statement : Statement} {middle whole : Jsx.Part}
    (h : statement.Found notes middle) (h' : middle.LiesIn whole) :
    statement.Found notes whole := by
  obtain ⟨converted, hconverted, hin⟩ := h
  exact ⟨converted, hconverted, hin.trans h'⟩

/-- Statements become runs of children, one after the other. -/
theorem Statement.exists_of_mem_toChildren {statements : List Statement}
    {children : List Jsx.Child} (h : toChildren notes statements = .ok children)
    {statement : Statement} (hm : statement ∈ statements) :
    ∃ converted before after, statement.convert notes = .ok converted ∧
      children = before ++ converted.children ++ after := by
  induction statements generalizing children with
  | nil => cases hm
  | cons first statements ih =>
    rw [toChildren] at h
    obtain ⟨converted, hc, h⟩ := bind_eq_ok h
    obtain ⟨rest, hr, h⟩ := bind_eq_ok h
    cases h
    rcases List.mem_cons.1 hm with rfl | hm
    · exact ⟨converted, [], rest, hc, rfl⟩
    · obtain ⟨other, before, after, ho, rfl⟩ := ih hr hm
      exact ⟨other, converted.children ++ before, after, ho, by simp only [List.append_assoc]⟩

theorem Statement.found_of_toChildren {statements : List Statement} {children : List Jsx.Child}
    (h : toChildren notes statements = .ok children) {statement : Statement}
    (hm : statement ∈ statements) (name : String) (attributes : List Jsx.Attribute)
    (selfClosing : Bool) :
    statement.Found notes (.term (.element (.mk name attributes children selfClosing))) := by
  obtain ⟨converted, before, after, hc, rfl⟩ := exists_of_mem_toChildren h hm
  exact ⟨converted, hc, .amid .refl⟩

theorem Body.found_of_toTerm {body : Body} {term : Jsx.Term} (h : body.toTerm notes = .ok term)
    {statement : Statement} (hm : statement ∈ body.statements) :
    statement.Found notes (.term term) := by
  match body with
  | .mk id [] => cases hm
  | .mk id [single] =>
    cases List.mem_singleton.1 hm
    obtain ⟨converted, hc, h⟩ := bind_eq_ok h
    exact ⟨converted, hc, .alone h .refl⟩
  | .mk id (first :: second :: rest) =>
    obtain ⟨children, hc, h⟩ := bind_eq_ok h
    cases h
    exact Statement.found_of_toChildren hc hm _ _ _

/-- The statements inside a statement: the children of an element that has an end tag, and those in
the bodies of a block. -/
def Statement.inner : Statement → List Statement
  | .element tag _ children selfClosing =>
    if selfClosing || isSelfClosingName tag then [] else children
  | .block _ program inverse => program.statements ++ inverse.elim [] Body.statements
  | _ => []

/-- The statements of a body that is no inverse of a link, or of an element. -/
def Statement.shown : Statement → List Statement
  | .block head program inverse =>
    if BlockKind.ofName? head.name = some .link then program.statements
    else program.statements ++ inverse.elim [] Body.statements
  | other => other.inner

/-- The bodies of a block but for the inverse of a link are found in what it becomes. -/
theorem BlockHead.Becomes.shown {head : BlockHead} {program : Body} {inverse : Option Body}
    {term : Jsx.Term} (h : head.Becomes notes program inverse term) {statement : Statement}
    (hm : statement ∈ (Statement.block head program inverse).shown) :
    statement.Found notes (.term term) := by
  have hbodies : BlockKind.ofName? head.name ≠ some .link →
      statement ∈ program.statements ∨ statement ∈ inverse.elim [] Body.statements := by
    intro hkind
    rw [Statement.shown, if_neg hkind] at hm
    exact List.mem_append.1 hm
  have hprogram : BlockKind.ofName? head.name = some .link → statement ∈ program.statements := by
    intro hkind
    rwa [Statement.shown, if_pos hkind] at hm
  have hsecond : ∀ {part first second : Jsx.Part}, second ∈ [part, first, second] :=
    fun {_ _ _} => List.mem_cons_of_mem _ (List.mem_cons_of_mem _ List.mem_cons_self)
  cases h with
  | condition hkind htest hc =>
    rcases hbodies (by rw [hkind]; exact nofun) with hm | hm
    · exact (Body.found_of_toTerm hc hm).trans
        (.of_mem (List.mem_cons_of_mem _ List.mem_cons_self))
    · cases hm
  | choice hkind htest hc ha =>
    rcases hbodies (by rw [hkind]; exact nofun) with hm | hm
    · exact (Body.found_of_toTerm hc hm).trans
        (.of_mem (List.mem_cons_of_mem _ List.mem_cons_self))
    · exact (Body.found_of_toTerm ha hm).trans (.of_mem hsecond)
  | loop hkind hcollection hb =>
    rcases hbodies (by rw [hkind]; exact nofun) with hm | hm
    · exact (Body.found_of_toTerm hb hm).trans (Jsx.Term.liesIn_loop _ _)
    · cases hm
  | loopOr hkind hcollection hb ha =>
    rcases hbodies (by rw [hkind]; exact nofun) with hm | hm
    · exact ((Body.found_of_toTerm hb hm).trans (Jsx.Term.liesIn_loop _ _)).trans
        (.of_mem (List.mem_cons_of_mem _ List.mem_cons_self))
    · exact (Body.found_of_toTerm ha hm).trans (.of_mem hsecond)
  | label hkind hattributes hempty =>
    have hm := hprogram hkind
    rw [hempty] at hm
    cases hm
  | link hkind hattributes hbody hc =>
    obtain ⟨id, statements⟩ := program
    exact Statement.found_of_toChildren hc (hprogram hkind) _ _ _

theorem Statement.Found.shown {outer statement : Statement} {whole : Jsx.Part}
    (h : outer.Found notes whole) (hm : statement ∈ outer.shown) :
    statement.Found notes whole := by
  obtain ⟨converted, hc, hin⟩ := h
  cases outer with
  | text | mustache | partialCall | mustacheComment | markupComment => cases hm
  | element tag attributes children selfClosing =>
    rw [Statement.convert.eq_def] at hc
    obtain ⟨kept, hk, hc⟩ := bind_eq_ok hc
    rw [Statement.shown, Statement.inner] at hm
    · split at hm
      · cases hm
      · next hopen =>
        dsimp only at hc
        rw [if_neg hopen] at hc
        obtain ⟨inner, hi, hc⟩ := bind_eq_ok hc
        cases hc
        exact (found_of_toChildren hi hm _ _ _).trans hin.liesIn_of_element
    · rintro _ _ _ ⟨⟩
  | block head program inverse =>
    obtain ⟨term, rfl, hbecomes⟩ := BlockHead.becomes_of_convert hc
    exact (hbecomes.shown hm).trans hin.liesIn_of_term

theorem Statement.Found.arguments {statement : Statement} {whole : Jsx.Part}
    (h : statement.Found notes whole) {argument : Argument}
    (hm : argument ∈ statement.arguments) :
    argument.Found notes whole ∨ argument ∈ statement.lostArguments := by
  obtain ⟨converted, hc, hin⟩ := h
  cases statement with
  | element | text | mustacheComment | markupComment => cases hm
  | mustache m =>
    obtain ⟨term, ht, hc⟩ := bind_eq_ok hc
    cases hc
    exact (m.arguments_found ht hm).imp_left fun hfound => hfound.trans hin.liesIn_of_term
  | partialCall call =>
    obtain ⟨element, he, hc⟩ := bind_eq_ok hc
    cases hc
    exact .inl ((call.arguments_found he hm).trans hin.liesIn_of_element)
  | block head program inverse =>
    obtain ⟨term, rfl, hbecomes⟩ := BlockHead.becomes_of_convert hc
    obtain ⟨e, he, hm⟩ := List.mem_flatMap.1 hm
    rcases hbecomes.reads he with hnone | ⟨value, hvalue, hlies⟩
    · rw [hnone] at hm
      cases hm
    · exact .inl ((Expression.arguments_found hvalue hm).trans
        (hlies.trans hin.liesIn_of_term))

end

/-! ### Whole templates -/

/-- A statement is among some, or inside one of them, where `inside` tells what that is. -/
inductive Statement.ReachedBy (inside : Statement → List Statement) (statement : Statement) :
    List Statement → Prop where
  | here {statements : List Statement} (h : statement ∈ statements) :
    ReachedBy inside statement statements
  | inside {outer : Statement} {statements : List Statement}
    (h : ReachedBy inside statement (inside outer)) (houter : outer ∈ statements) :
    ReachedBy inside statement statements

/-- A statement of a template is in the inverse of a link, or inside one that is. -/
def Statement.LostIn (template : List Statement) (statement : Statement) : Prop :=
  ∃ head program inverse, head.name = "linkTo" ∧
    (Statement.block head program (some inverse)).ReachedBy shown template ∧
    statement.ReachedBy inner inverse.statements

namespace Statement

variable {inside : Statement → List Statement} {statement outer : Statement}
  {statements others template : List Statement}

theorem ReachedBy.mono (h : statement.ReachedBy inside statements) (hsub : statements ⊆ others) :
    statement.ReachedBy inside others := by
  cases h with
  | here hm => exact .here (hsub hm)
  | inside h houter => exact .inside h (hsub houter)

theorem ReachedBy.trans (h : statement.ReachedBy inside (inside outer))
    (h' : outer.ReachedBy inside statements) : statement.ReachedBy inside statements := by
  induction h' with
  | here hm => exact .inside h hm
  | inside _ houter ih => exact .inside ih houter

theorem not_reachedBy_nil : ¬ statement.ReachedBy inside [] := by
  rintro (hm | ⟨-, hm⟩) <;> cases hm

theorem ReachedBy.of_singleton (h : statement.ReachedBy inside [outer]) :
    statement = outer ∨ statement.ReachedBy inside (inside outer) := by
  cases h with
  | here hm => exact .inl (List.mem_singleton.1 hm)
  | inside h houter =>
    cases List.mem_singleton.1 houter
    exact .inr h

theorem shown_subset_inner (statement : Statement) : statement.shown ⊆ statement.inner := by
  cases statement with
  | block head program inverse =>
    rw [shown]
    split
    · exact List.subset_append_left _ _
    · exact List.Subset.refl _
  | element | text | mustache | partialCall | mustacheComment | markupComment =>
    exact List.Subset.refl _

theorem ReachedBy.of_shown (h : statement.ReachedBy shown statements) :
    statement.ReachedBy inner statements := by
  induction h with
  | here hm => exact .here hm
  | inside _ houter ih => exact .inside (ih.mono (shown_subset_inner _)) houter

theorem mem_inner (h : statement ∈ outer.inner) : statement ∈ outer.shown ∨
    ∃ head program inverse, outer = .block head program (some inverse) ∧ head.name = "linkTo" ∧
      statement ∈ inverse.statements := by
  cases outer with
  | element | text | mustache | partialCall | mustacheComment | markupComment => exact .inl h
  | block head program inverse =>
    rw [shown]
    split
    · next hkind =>
      rcases List.mem_append.1 h with h | h
      · exact .inl h
      · cases inverse with
        | none => cases h
        | some body =>
          exact .inr ⟨head, program, body, rfl, BlockKind.ofName?_eq_link.1 hkind, h⟩
    · exact .inl h

theorem ReachedBy.shown_or_lost (h : statement.ReachedBy inner template) :
    statement.ReachedBy shown template ∨ statement.LostIn template := by
  induction h with
  | here hm => exact .inl (.here hm)
  | @inside outer statements h houter ih =>
    have hcut : ∀ reached : Statement, reached.ReachedBy shown outer.inner →
        reached.ReachedBy shown outer.shown ∨
          ∃ head program inverse, outer = .block head program (some inverse) ∧
            head.name = "linkTo" ∧ reached.ReachedBy inner inverse.statements := by
      intro reached hreached
      cases hreached with
      | here hm =>
        refine (mem_inner hm).imp .here ?_
        rintro ⟨head, program, inverse, heq, hname, hm⟩
        exact ⟨head, program, inverse, heq, hname, .here hm⟩
      | inside hreached hm =>
        refine (mem_inner hm).imp (.inside hreached) ?_
        rintro ⟨head, program, inverse, heq, hname, hm⟩
        exact ⟨head, program, inverse, heq, hname, .trans (hreached.of_shown.mono
          (shown_subset_inner _)) (.here hm)⟩
    rcases ih with hshown | ⟨head, program, inverse, hname, hlink, hlost⟩
    · rcases hcut statement hshown with hshown | ⟨head, program, inverse, rfl, hname, hlost⟩
      · exact .inl (.inside hshown houter)
      · exact .inr ⟨head, program, inverse, hname, .here houter, hlost⟩
    · rcases hcut _ hlink with hlink | ⟨head', program', inverse', rfl, hname', hlink⟩
      · exact .inr ⟨head, program, inverse, hname, .inside hlink houter, hlost⟩
      · refine .inr ⟨head', program', inverse', hname', .here houter, .trans (hlost.mono ?_) hlink⟩
        exact List.subset_append_right _ _

theorem ReachedBy.found {notes : Annotations} {whole : Jsx.Part}
    (h : statement.ReachedBy shown statements)
    (hfound : ∀ s ∈ statements, s.Found notes whole) : statement.Found notes whole := by
  induction h with
  | here hm => exact hfound _ hm
  | inside _ houter ih => exact ih fun s hs => (hfound _ houter).shown hs

end Statement

/-- Every statement of a template is found in the last statement of the program, and so is every
argument of its calls, unless the statement is in the inverse of a link or the argument is in a
named one of a mustache that has no others. -/
theorem content_is_kept {template : Template} {options : Options} {notes : Annotations}
    {helpers : List Helper} {program : Jsx.Program}
    (h : template.toProgram options notes helpers = .ok program) :
    ∃ root, template.toTerm notes = .ok root ∧
      program.getLast? = some (options.toRoot root) ∧
      ∀ statement : Statement, statement.ReachedBy Statement.inner template →
        (statement.Found notes (.term root) ∧
          ∀ argument : Argument, argument.Beneath statement.arguments →
            argument.Found notes (.term root) ∨ argument.Beneath statement.lostArguments) ∨
        statement.LostIn template := by
  obtain ⟨root, hroot, h⟩ := bind_eq_ok h
  cases h
  refine ⟨root, hroot, List.getLast?_concat, fun statement hstatement => ?_⟩
  rcases hstatement.shown_or_lost with hshown | hlost
  · have hfound : statement.Found notes (.term root) :=
      hshown.found fun s hs => Body.found_of_toTerm hroot hs
    exact .inl ⟨hfound, fun argument harg => harg.found fun a ha => hfound.arguments ha⟩
  · exact .inr hlost

/-! ### Examples -/

def callWithNamed : Statement :=
  .mustache
    { callee := .path (.ofName 1 "f")
      params := [.path (.ofName 2 "a")]
      hash := [("b", .path (.ofName 3 "c"))]
      trusting := false }

def rowsWithCall : Template :=
  [.block { path := .ofName 4 "each", params := [.path (.ofName 5 "rows")], hash := [] }
    (.mk 6 [.element "li" [] [callWithNamed] false]) none]

/-- The named argument of the call in each row is found in the program. -/
theorem rowsWithCall_kept :
    ∃ program, rowsWithCall.toProgram {} {} [] = .ok program ∧
      ∃ root, program.getLast? = some (Options.toRoot {} root) ∧
        (Argument.named "b" (.path (.ofName 3 "c"))).Found {} (.term root) := by
  have hconverts : (rowsWithCall.toProgram {} {} []).toOption.any (fun _ => true) = true := by
    decide +kernel
  obtain ⟨program, hprogram, -⟩ := exists_ok_of_check hconverts
  obtain ⟨root, -, hlast, hkept⟩ := content_is_kept hprogram
  refine ⟨program, hprogram, root, hlast, ?_⟩
  have hreached : callWithNamed.ReachedBy Statement.inner rowsWithCall :=
    .inside (.inside (.here List.mem_cons_self) List.mem_cons_self) List.mem_cons_self
  rcases hkept callWithNamed hreached with ⟨-, hfound⟩ | hlost
  · rcases hfound _ (.here (List.mem_cons_of_mem _ List.mem_cons_self)) with hfound | hlost
    · exact hfound
    · exact absurd hlost Argument.not_beneath_nil
  · obtain ⟨head, body, inverse, -, hblock, -⟩ := hlost
    rcases hblock.of_singleton with heq | hblock
    · cases heq
    · rcases hblock.of_singleton with heq | hblock
      · cases heq
      · rcases hblock.of_singleton with heq | hblock
        · cases heq
        · exact absurd hblock Statement.not_reachedBy_nil

def linkWithElse : Template :=
  [.block { path := .ofName 0 "linkTo", params := [.literal (.string "/x")], hash := [] }
    (.mk 1 [.text "a"]) (some (.mk 2 [.text "b"]))]

def linkAlone : Jsx.Term := .element (.mk "Link" [.term "href" (.string "/x")] [.text "a"] false)

/-- The text of the inverse does not occur in it. -/
theorem linkWithElse_loses :
    linkWithElse.toTerm {} = .ok linkAlone ∧
      (Statement.text "b").ReachedBy Statement.inner linkWithElse ∧
      ¬ (Statement.text "b").Found {} (.term linkAlone) := by
  refine ⟨rfl, .inside (.here (List.mem_cons_of_mem _ List.mem_cons_self)) List.mem_cons_self, ?_⟩
  have hparts : ∀ part : Jsx.Part, part.LiesIn (.term linkAlone) →
      part = .term linkAlone ∨ part = .attribute (.term "href" (.string "/x")) ∨
        part = .term (.string "/x") ∨ part = .child (.text "a") := by
    intro part h
    generalize hwhole : Jsx.Part.term linkAlone = whole at h
    cases h with
    | refl => exact .inl rfl
    | @keyed element =>
      obtain ⟨name, attributes, children, selfClosing⟩ := element
      have hattributes : [] ++ [.term "href" (.string "/x")] = attributes ++
          [.term Vocabulary.key (.name Vocabulary.loopIndex)] := by
        injection hwhole with hterm
        injection hterm with helement
        injection helement
      obtain ⟨-, hlast⟩ := List.append_inj' hattributes rfl
      obtain ⟨hname, -⟩ := Jsx.Attribute.term.inj (List.head_eq_of_cons_eq hlast)
      exact absurd hname (by decide)
    | step h hnext =>
      cases hwhole
      have hnext : _ ∈ [Jsx.Part.attribute (.term "href" (.string "/x")), .child (.text "a")] :=
        hnext
      rcases List.mem_pair.1 hnext with rfl | rfl
      · cases h with
        | refl => exact .inr (.inl rfl)
        | step h hnext =>
          cases List.mem_singleton.1 hnext
          cases h with
          | refl => exact .inr (.inr (.inl rfl))
          | step _ hnext => cases hnext
      · cases h with
        | refl => exact .inr (.inr (.inr rfl))
        | step _ hnext => cases hnext
  rintro ⟨converted, hconverted, hin⟩
  cases hconverted
  cases hin with
  | alone ha hin =>
    cases ha
    rcases hparts _ hin with heq | heq | heq | heq <;> simp [linkAlone] at heq
  | @amid name attributes before after selfClosing hin =>
    rcases hparts _ hin with heq | heq | heq | heq
    · have hchildren : before ++ [.text "b"] ++ after = [Jsx.Child.text "a"] := by
        injection heq with hterm
        injection hterm with helement
        injection helement
      have hm : Jsx.Child.text "b" ∈ [Jsx.Child.text "a"] := by
        rw [← hchildren]
        exact List.mem_append_left _ (List.mem_append_right _ List.mem_cons_self)
      simp at hm
    · cases heq
    · cases heq
    · cases heq

end MustacheJsx
