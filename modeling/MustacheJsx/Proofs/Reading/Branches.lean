import MustacheJsx.Proofs.Conversion.Chain
import MustacheJsx.Proofs.Reading.Completeness

/-!
# Blocks and their branches

A block may have any number of `else if`s and at most one `else`, which comes last; then it becomes
a chain of blocks. If these are conditions, the term that the chain becomes shows the first branch
whose test holds, whatever truth values the conditions have: `Template.read_iff_elseLast`.
-/

namespace MustacheJsx

open Markup (Token StartTag)

namespace Lifted

variable {lifted : Lifted}

/-! ### Tokens between tokens -/

section

variable {zs : List Token} {inserted : List Statement} (hz : lifted.Reads zs inserted)

include hz

mutual

theorem Reads.exists_insert {tokens : List Token} {statements : List Statement}
    (h : lifted.Reads tokens statements) (xs ys : List Token) (heq : tokens = xs ++ ys) :
    ∃ found, lifted.Reads (xs ++ (zs ++ ys)) found := by
  match xs, h with
  | [], h =>
    cases heq
    exact ⟨_, hz.append h⟩
  | x :: xs, .nil => cases heq
  | x :: xs, .text hr h =>
    obtain ⟨rfl, htail⟩ := List.cons.inj heq
    obtain ⟨found, hfound⟩ := h.exists_insert xs ys htail
    exact ⟨_, .text hr hfound⟩
  | x :: xs, .markupComment hw h =>
    obtain ⟨rfl, htail⟩ := List.cons.inj heq
    obtain ⟨found, hfound⟩ := h.exists_insert xs ys htail
    exact ⟨_, .markupComment hw hfound⟩
  | x :: xs, .mustacheComment hw hk h =>
    obtain ⟨rfl, htail⟩ := List.cons.inj heq
    obtain ⟨found, hfound⟩ := h.exists_insert xs ys htail
    exact ⟨_, .mustacheComment hw hk hfound⟩
  | x :: xs, .leaf he hleaf ha h =>
    obtain ⟨rfl, htail⟩ := List.cons.inj heq
    obtain ⟨found, hfound⟩ := h.exists_insert xs ys htail
    exact ⟨_, .leaf he hleaf ha hfound⟩
  | x :: xs, .element he hleaf ha hi h =>
    obtain ⟨rfl, htail⟩ := List.cons.inj heq
    obtain ⟨as, rfl, hend⟩ | ⟨as, hinner, rfl⟩ := List.append_eq_append_iff.1 htail
    · cases as with
      | nil =>
        obtain rfl : _ = ys := hend
        rw [List.append_nil, List.cons_append, ← List.append_assoc]
        exact ⟨_, .element he hleaf ha (hi.append hz) h⟩
      | cons token as =>
        obtain ⟨rfl, hrest⟩ := List.cons.inj hend
        obtain ⟨found, hfound⟩ := h.exists_insert as ys hrest
        rw [List.cons_append, List.append_assoc, List.cons_append]
        exact ⟨_, .element he hleaf ha hi hfound⟩
    · obtain ⟨found, hfound⟩ := hi.exists_insert xs as hinner
      rw [List.cons_append, ← List.append_assoc zs, ← List.append_assoc xs]
      exact ⟨_, .element he hleaf ha hfound h⟩
  | x :: xs, .block ht hn hk hp hi h =>
    obtain ⟨rfl, htail⟩ := List.cons.inj heq
    obtain ⟨as, rfl, hrest⟩ | ⟨as, hinner, rfl⟩ := List.append_eq_append_iff.1 htail
    · cases as with
      | nil =>
        cases hrest
        rw [List.append_nil, List.cons_append, ← List.append_assoc]
        exact ⟨.block _ (.mk 0 _) _ :: _, .block ht hn hk (hp.append hz) hi h⟩
      | cons token as =>
        obtain ⟨bs, hbs, hend⟩ | ⟨bs, hbs, rfl⟩ := List.append_eq_append_iff.1 hrest
        · cases bs with
          | nil =>
            cases hend
            rw [List.append_nil] at hbs
            obtain ⟨found, hfound⟩ := hi.exists_insert token as [] (by rw [← hbs, List.append_nil])
            rw [List.cons_append, List.append_assoc, ← List.append_assoc (token :: as)]
            rw [List.append_nil] at hfound
            exact ⟨.block _ (.mk 0 _) _ :: _, .block ht hn hk hp hfound h⟩
          | cons last bs =>
            obtain ⟨rfl, hlast⟩ := List.cons.inj hend
            obtain ⟨found, hfound⟩ := h.exists_insert bs ys hlast
            rw [hbs, List.cons_append, List.append_assoc, List.append_assoc, List.cons_append]
            exact ⟨.block _ (.mk 0 _) _ :: _, .block ht hn hk hp hi hfound⟩
        · obtain ⟨found, hfound⟩ := hi.exists_insert token as bs hbs
          rw [List.cons_append, List.append_assoc, ← List.append_assoc zs,
            ← List.append_assoc (token :: as)]
          exact ⟨.block _ (.mk 0 _) _ :: _, .block ht hn hk hp hfound h⟩
    · obtain ⟨found, hfound⟩ := hp.exists_insert xs as hinner
      rw [List.cons_append, ← List.append_assoc zs, ← List.append_assoc xs]
      exact ⟨.block _ (.mk 0 _) _ :: _, .block ht hn hk hfound hi h⟩

theorem ReadsInverse.exists_insert {tokens : List Token} {inverse : Option Body}
    (h : lifted.ReadsInverse tokens inverse) (x : Token) (xs ys : List Token)
    (heq : tokens = x :: xs ++ ys) :
    ∃ found, lifted.ReadsInverse (x :: xs ++ (zs ++ ys)) found := by
  match h with
  | .none => cases heq
  | .otherwise ht hn hp =>
    obtain ⟨rfl, htail⟩ := List.cons.inj heq
    obtain ⟨found, hfound⟩ := hp.exists_insert xs ys htail
    exact ⟨some (.mk 0 _), .otherwise ht hn hfound⟩
  | .elseIf ht hn hk hp hi =>
    obtain ⟨rfl, htail⟩ := List.cons.inj heq
    obtain ⟨as, rfl, hrest⟩ | ⟨as, hinner, rfl⟩ := List.append_eq_append_iff.1 htail
    · cases as with
      | nil =>
        cases hrest
        rw [List.append_nil, List.cons_append, ← List.append_assoc]
        exact ⟨some (.mk 0 [.block _ (.mk 0 _) _]), .elseIf ht hn hk (hp.append hz) hi⟩
      | cons token as =>
        obtain ⟨found, hfound⟩ := hi.exists_insert token as ys hrest
        rw [List.cons_append, List.append_assoc]
        exact ⟨some (.mk 0 [.block _ (.mk 0 _) _]), .elseIf ht hn hk hp hfound⟩
    · obtain ⟨found, hfound⟩ := hp.exists_insert xs as hinner
      rw [List.cons_append, ← List.append_assoc zs, ← List.append_assoc xs]
      exact ⟨some (.mk 0 [.block _ (.mk 0 _) _]), .elseIf ht hn hk hfound hi⟩

end

end

/-! ### The chain of a block -/

/-- The branches of a block are a chain: its heads are those of the block and its `else if`s, and
its bodies are what their tokens read as. -/
structure SourceBlock.Chains (block : SourceBlock lifted) (statement : Statement)
    (chain : List (BlockHead × Body)) (otherwise : Option Body) : Prop where
  statement : ∃ head program inverse rest, statement = .block head program inverse ∧
    chain = (head, program) :: rest ∧ ChainsTo inverse rest otherwise
  heads : chain.map Prod.fst = block.head :: block.arms.filterMap Arm.head
  bodies : List.Forall₂ (fun tokens (body : Body) => lifted.Reads tokens body.statements)
    (block.program :: block.arms.map Arm.inner) (chain.map Prod.snd ++ otherwise.toList)

theorem Inverts.exists_chain {arms : List (Arm lifted)} {inverse : Option Body}
    (h : lifted.Inverts arms inverse) :
    ∃ chain otherwise, ChainsTo inverse chain otherwise ∧
      chain.map Prod.fst = arms.filterMap Arm.head ∧
      List.Forall₂ (fun tokens (body : Body) => lifted.Reads tokens body.statements)
        (arms.map Arm.inner) (chain.map Prod.snd ++ otherwise.toList) := by
  induction h with
  | none => exact ⟨[], .none, .last _, rfl, .nil⟩
  | @otherwise arm id body hhead hreads =>
    refine ⟨[], some (.mk id body), .last _, ?_, .cons hreads .nil⟩
    rw [List.filterMap_cons_none hhead]
    rfl
  | @elseIf arm head arms id id' body inverse hhead hreads _ ih =>
    obtain ⟨chain, otherwise, hchains, hheads, hbodies⟩ := ih
    refine ⟨(head, .mk id body) :: chain, otherwise, .elseIf hchains, ?_, .cons hreads hbodies⟩
    rw [List.filterMap_cons_some hhead, List.map_cons, hheads]

theorem SourceBlock.Becomes.exists_chain {block : SourceBlock lifted} {statement : Statement}
    (h : block.Becomes statement) : ∃ chain otherwise, block.Chains statement chain otherwise := by
  cases h with
  | @intro id body inverse hprogram hinverts =>
    obtain ⟨rest, otherwise, hchains, hheads, hbodies⟩ := hinverts.exists_chain
    refine ⟨(block.head, .mk id body) :: rest, otherwise, ⟨_, _, _, rest, rfl, rfl, hchains⟩, ?_,
      .cons hprogram hbodies⟩
    rw [List.map_cons, hheads]

/-- Whatever truth values the conditions of a chain have, it shows the branch that they select. -/
theorem SourceBlock.Chains.eval_of_convert {block : SourceBlock lifted} {statement : Statement}
    {chain : List (BlockHead × Body)} {otherwise : Option Body}
    (h : block.Chains statement chain otherwise) (hhead : block.head.IsCondition)
    (hheads : ∀ head ∈ block.arms.filterMap Arm.head, head.IsCondition) {notes : Annotations}
    {converted : Converted} (hconvert : statement.convert notes = .ok converted) :
    ∃ term, converted = .term term ∧ ∀ (V : Type) (s : Jsx.Semantics V),
      Body.valueWith s notes (selected s notes chain otherwise) = .ok (s.eval term) := by
  obtain ⟨⟨head, program, inverse, rest, rfl, rfl, hchains⟩, hall, -⟩ := h
  obtain ⟨rfl, hrest⟩ := List.cons.inj hall
  have hconditions : ∀ branch ∈ rest, branch.1.IsCondition := by
    intro branch hmem
    exact hheads _ (hrest ▸ List.mem_map_of_mem hmem)
  obtain ⟨condition, consequent, term, -, -, -, rfl⟩ :=
    Statement.exists_of_convert_condition hhead hconvert
  refine ⟨term, rfl, fun V s => ?_⟩
  obtain ⟨shown, hshown, hvalue⟩ :=
    Statement.eval_of_convert_chain s hchains hhead hconditions hconvert
  cases hshown
  exact hvalue

end Lifted

/-! ### Templates -/

/-- Reads on after the tokens that have led to an assembly. -/
def Assembly.finish (a : Assembly) (tokens : List Token) : Except CompileError Template :=
  (do
    let a ← tokens.foldlM read a
    a.result).mapError fun fault => .parse fault 0

theorem Assembly.finish_append {a b : Assembly} {xs : List Token} (h : xs.foldlM read a = .ok b)
    (ys : List Token) : a.finish (xs ++ ys) = b.finish ys := by
  rw [finish, List.foldlM_append, h]
  rfl

namespace Template

variable {source : List Char} {lifted : Lifted} {next : Nat}

theorem read_eq_finish (hs : Lifted.ofSource source = .ok (lifted, next)) :
    Template.read source =
      Assembly.finish { lifted, next } (Markup.tokens lifted.markup) := by
  rw [Template.read, hs]
  rfl

theorem leaves_of_foldlM_read {tokens : List Token} {reached : Assembly}
    (h : tokens.foldlM Assembly.read { lifted, next } = .ok reached) :
    lifted.Leaves reached.lifted (lifted.marks tokens) := by
  have hstart : Assembly.Reaches lifted [] { lifted, next } :=
    ⟨.outside .nil, [], .refl lifted, .nil⟩
  obtain ⟨-, taken, htaken, hperm⟩ := Assembly.foldlM_read_reaches hstart h
  refine ⟨htaken.marker, htaken.unquoted, fun index hindex => htaken.left index fun hmem => ?_⟩
  exact hindex (hperm.mem_iff.2 (List.mem_append_left _ hmem))

/-- A block between tokens that read without it, with branches in any order, is accepted exactly
when at most one of them is an `else`, and the last one. Then it is read as the chain of its
branches, and if they are conditions, the chain shows the branch that the conditions select. -/
theorem read_iff_elseLast (hs : Lifted.ofSource source = .ok (lifted, next))
    (block : lifted.SourceBlock) {before after : List Token}
    (htokens : Markup.tokens lifted.markup = before ++ (block.tokens ++ after))
    (hmarks : (lifted.marks (Markup.tokens lifted.markup)).Perm
      (List.range lifted.placeholders.length))
    (haround : ∃ outer, lifted.Reads (before ++ after) outer)
    (hprogram : ∃ body, lifted.Reads block.program body)
    (harms : ∀ arm ∈ block.arms, ∃ body, lifted.Reads arm.inner body) :
    ((∃ template, Template.read source = .ok template) ↔ Lifted.ElseLast block.arms) ∧
    (Lifted.ElseLast block.arms → ∃ reached statement current next' chain otherwise,
      before.foldlM Assembly.read { lifted, next } = .ok reached ∧
      Template.read source =
        (Assembly.add { reached with lifted := current, next := next' } statement).finish after ∧
      block.Chains statement chain otherwise ∧
      (block.head.IsCondition →
        (∀ head ∈ block.arms.filterMap Lifted.Arm.head, head.IsCondition) →
        ∀ notes converted, statement.convert notes = .ok converted →
        ∃ term, converted = .term term ∧ ∀ (V : Type) (s : Jsx.Semantics V),
          Body.valueWith s notes (selected s notes chain otherwise) = .ok (s.eval term))) := by
  have hsettle : block.BranchesSettle :=
    ⟨hprogram.elim fun _ h => h.settling,
      fun arm harm => (harms arm harm).elim fun _ h => h.settling⟩
  have hnodup : (lifted.marks (before ++ (block.tokens ++ after))).Nodup := by
    rw [← htokens]
    exact hmarks.nodup_iff.2 List.nodup_range
  have hfresh :
      Fresh [] (lifted.marks before ++ (lifted.marks block.tokens ++ lifted.marks after)) := by
    rw [← Lifted.marks_append, ← Lifted.marks_append]
    exact ⟨hnodup, List.disjoint_nil_left _⟩
  have hok : Lifted.ElseLast block.arms → ∃ template, Template.read source = .ok template := by
    intro hlast
    obtain ⟨outer, houter⟩ := haround
    obtain ⟨statement, -, -, -, hbecomes, -⟩ :=
      (block.foldlM_read hsettle (a := { lifted, next }) (.refl lifted)
        (hfresh.perm List.perm_append_comm).left.left).1 hlast
    refine (exists_read_iff hs).2 ⟨?_, hmarks⟩
    rw [htokens]
    exact hbecomes.reads.exists_insert houter before after rfl
  have hreached : ∀ template, Template.read source = .ok template → ∃ reached,
      before.foldlM Assembly.read { lifted, next } = .ok reached ∧
      reached.finish (block.tokens ++ after) = .ok template := by
    intro template hread
    rw [read_eq_finish hs, htokens] at hread
    have hfold := hread
    rw [Assembly.finish, List.foldlM_append] at hfold
    obtain ⟨last, hlast, -⟩ := bind_eq_ok (mapError_eq_ok hfold)
    obtain ⟨reached, hbefore, -⟩ := bind_eq_ok hlast
    exact ⟨reached, hbefore, by rwa [← Assembly.finish_append hbefore]⟩
  have hblock : ∀ reached, before.foldlM Assembly.read { lifted, next } = .ok reached →
      _ := fun reached hbefore =>
    block.foldlM_read hsettle (leaves_of_foldlM_read hbefore) hfresh.right.left
  refine ⟨⟨?_, hok⟩, ?_⟩
  · rintro ⟨template, hread⟩
    obtain ⟨reached, hbefore, hfinish⟩ := hreached template hread
    by_contra hnot
    rw [Assembly.finish, List.foldlM_append, (hblock reached hbefore).2 hnot] at hfinish
    cases hfinish
  · intro hlast
    obtain ⟨template, hread⟩ := hok hlast
    obtain ⟨reached, hbefore, -⟩ := hreached template hread
    obtain ⟨statement, current, next', hfold, hbecomes, -⟩ := (hblock reached hbefore).1 hlast
    obtain ⟨chain, otherwise, hchains⟩ := hbecomes.exists_chain
    refine ⟨reached, statement, current, next', chain, otherwise, hbefore, ?_, hchains,
      fun hhead hheads notes converted => hchains.eval_of_convert hhead hheads⟩
    rw [read_eq_finish hs, htokens, Assembly.finish_append hbefore, Assembly.finish_append hfold]

/-! ### A chain and its branches in another order -/

def chainSource : List Char :=
  ("<p>\x7b\x7b#unless a\x7d\x7d" ++ "x\x7b\x7belse if b\x7d\x7d\x7b\x7by\x7d\x7d" ++
    "\x7b\x7belse\x7d\x7dz\x7b\x7b/unless\x7d\x7d</p>").toList

/-- The same branches with the `else` before the `else if`. -/
def swappedSource : List Char :=
  ("<p>\x7b\x7b#unless a\x7d\x7d" ++ "x\x7b\x7belse\x7d\x7dz\x7b\x7belse if b\x7d\x7d" ++
    "\x7b\x7by\x7d\x7d\x7b\x7b/unless\x7d\x7d</p>").toList

def unlessHead : BlockHead := ⟨.ofName 0 "unless", [.path (.ofName 1 "a")], []⟩

def elseIfHead : BlockHead := ⟨.ofName 2 "if", [.path (.ofName 3 "b")], []⟩

def shownMustache : Mustache := ⟨.path (.ofName 4 "y"), [], [], false⟩

/-- What the chain is read as, with the numbers of its bodies. -/
def chainStatement (first second third inverse : Nat) : Statement :=
  .block unlessHead (.mk first [.text "x"]) (some (.mk inverse
    [.block elseIfHead (.mk second [.mustache shownMustache]) (some (.mk third [.text "z"]))]))

/-- Whether the tags that were lifted out of a source are those of the chain. -/
def holdsChain : List (Option Placeholder) → Bool
  | [some (.block ⟨head, [.path a], []⟩), some (.elseIf ⟨chained, [.path b], []⟩),
      some (.expression ⟨.path y, [], [], false⟩)] =>
    [head, a, chained, b, y] ==
      [.ofName 0 "unless", .ofName 1 "a", .ofName 2 "if", .ofName 3 "b", .ofName 4 "y"]
  | _ => false

theorem eq_of_holdsChain {placeholders : List (Option Placeholder)}
    (h : holdsChain placeholders = true) :
    placeholders =
      [some (.block unlessHead), some (.elseIf elseIfHead), some (.expression shownMustache)] := by
  rw [holdsChain.eq_def] at h
  split at h
  · simp only [beq_iff_eq, List.cons.injEq] at h
    obtain ⟨rfl, rfl, rfl, rfl, rfl, -⟩ := h
    rfl
  · cases h

/-- Lifting takes a block, an `else if` and a value out of a source and leaves `tokens`. -/
def leavesChain (source : List Char) (tokens : List Token) : Bool :=
  (Lifted.ofSource source).toOption.any fun found =>
    found.1.marker == '\ue000' && Markup.tokens found.1.markup == tokens &&
      holdsChain found.1.placeholders

theorem exists_of_leavesChain {tokens : List Token} (h : leavesChain source tokens = true) :
    ∃ lifted next, Lifted.ofSource source = .ok (lifted, next) ∧ lifted.marker = '\ue000' ∧
      Markup.tokens lifted.markup = tokens ∧ lifted.placeholders.length = 3 ∧
      lifted.Keeps 0 (.block unlessHead) ∧ lifted.Keeps 1 (.elseIf elseIfHead) ∧
      lifted.Keeps 2 (.expression shownMustache) := by
  obtain ⟨⟨lifted, next⟩, hs, hcheck⟩ := exists_ok_of_check h
  simp only [Bool.and_eq_true, beq_iff_eq] at hcheck
  have hplaceholders := eq_of_holdsChain hcheck.2
  refine ⟨lifted, next, hs, hcheck.1.1, hcheck.1.2, ?_⟩
  simp [Lifted.Keeps, hplaceholders]

def paragraphTag : StartTag := ⟨"p", [], false⟩

def markerTag (name number : String) : StartTag := ⟨name, [(numberAttribute, number)], false⟩

section

variable (hmarker : lifted.marker = '\ue000') (h0 : lifted.Keeps 0 (.block unlessHead))
  (h1 : lifted.Keeps 1 (.elseIf elseIfHead)) (h2 : lifted.Keeps 2 (.expression shownMustache))

def elseIfArm (h1 : lifted.Keeps 1 (.elseIf elseIfHead)) : lifted.Arm :=
  { tag := markerTag elseTag "1", line := 1, head := some elseIfHead,
    inner := [.text ['\ue000', '2', '\ue000']], isElse := rfl,
    standsFor := .elseIf (show number? (markerTag elseTag "1") = some 1 by decide +kernel) h1 }

def elseArm (lifted : Lifted) : lifted.Arm :=
  { tag := ⟨elseTag, [], false⟩, line := 1, head := none, inner := [.text ['z']], isElse := rfl,
    standsFor := .otherwise (show number? ⟨elseTag, [], false⟩ = none by decide +kernel) }

def chainBlock (h0 : lifted.Keeps 0 (.block unlessHead)) (arms : List lifted.Arm) :
    lifted.SourceBlock :=
  { tag := markerTag blockTag "0", line := 1, head := unlessHead, program := [.text ['x']], arms,
    endLine := 1, isBlock := rfl,
    opens := ⟨0, show number? (markerTag blockTag "0") = some 0 by decide +kernel, h0⟩ }

theorem reads_paragraph (lifted : Lifted) :
    ∃ outer, lifted.Reads ([.startTag paragraphTag 1] ++ [.endTag "p" 1]) outer :=
  ⟨_, .element (show IsElement paragraphTag from ⟨by decide, by decide⟩) rfl .nil .nil .nil⟩

theorem eq_of_finish_paragraph {reached : Assembly} {current : Lifted} {next' : Nat}
    {statement : Statement} {template : Template}
    (hreached : [Token.startTag paragraphTag 1].foldlM Assembly.read { lifted, next } = .ok reached)
    (h : (Assembly.add { reached with lifted := current, next := next' } statement).finish
      [.endTag "p" 1] = .ok template) :
    template = [.element "p" [] [statement] false] := by
  cases hreached
  have hresult := mapError_eq_ok h
  change (if current.isEmpty then _ else _) = _ at hresult
  split at hresult
  · cases hresult
    rfl
  · cases hresult

include hmarker

theorem marks_perm {tokens : List Token} (htokens : Markup.tokens lifted.markup = tokens)
    (hlength : lifted.placeholders.length = 3)
    (h : (tokens.flatMap (Token.marks '\ue000')).Perm [0, 1, 2]) :
    (lifted.marks (Markup.tokens lifted.markup)).Perm (List.range lifted.placeholders.length) := by
  rwa [Lifted.marks, htokens, hmarker, hlength]

theorem reads_plain {chars : List Char} (hsplit : Piece.split '\ue000' chars = [.text chars])
    {body : List Statement} :
    lifted.Reads [.text chars] body ↔ body = [.text (String.ofList chars)] := by
  rw [← hmarker] at hsplit
  constructor
  · rintro (_ | ⟨hrestored, ⟨⟩⟩)
    rw [hsplit] at hrestored
    rcases hrestored with _ | ⟨⟨⟩⟩
    rfl
  · rintro rfl
    have hrestored : lifted.Restores (Piece.split lifted.marker chars)
        [.text (String.ofList chars)] := hsplit ▸ .text .nil
    exact .text hrestored .nil

include h2

theorem reads_shown {body : List Statement} :
    lifted.Reads [.text ['\ue000', '2', '\ue000']] body ↔ body = [.mustache shownMustache] := by
  have hsplit : Piece.split lifted.marker ['\ue000', '2', '\ue000'] = [.hole (some 2)] := by
    rw [hmarker]
    decide +kernel
  constructor
  · rintro (_ | ⟨hrestored, ⟨⟩⟩)
    rw [hsplit] at hrestored
    rcases hrestored with _ | _ | ⟨hkeeps, ⟨⟩⟩ | ⟨hkeeps, -⟩
    · cases (h2.symm.trans hkeeps)
      rfl
    · cases (h2.symm.trans hkeeps)
  · rintro rfl
    have hrestored : lifted.Restores (Piece.split lifted.marker ['\ue000', '2', '\ue000'])
        [.mustache shownMustache] := hsplit ▸ .mustache h2 .nil
    exact .text hrestored .nil

theorem reads_arms :
    ∀ arm ∈ [elseIfArm h1, elseArm lifted], ∃ body, lifted.Reads arm.inner body :=
  List.forall_mem_cons.2 ⟨⟨_, (reads_shown hmarker h2).2 rfl⟩,
    List.forall_mem_singleton.2 ⟨_, (reads_plain hmarker (by decide +kernel)).2 rfl⟩⟩

theorem exists_of_chains {statement : Statement} {chain : List (BlockHead × Body)}
    {otherwise : Option Body}
    (h : (chainBlock h0 [elseIfArm h1, elseArm lifted]).Chains statement chain otherwise) :
    ∃ first second third inverse,
      statement = chainStatement first second third inverse ∧
      chain = [(unlessHead, .mk first [.text "x"]),
        (elseIfHead, .mk second [.mustache shownMustache])] ∧
      otherwise = some (.mk third [.text "z"]) := by
  obtain ⟨⟨head, ⟨first, xs⟩, inverse, rest, rfl, rfl, hchains⟩, hheads, hbodies⟩ := h
  obtain ⟨rfl, hrest⟩ := List.cons.inj hheads
  obtain ⟨⟨chained, second, ys⟩, rfl, rfl⟩ :
      ∃ branch, rest = [branch] ∧ branch.1 = elseIfHead := List.map_eq_singleton_iff.1 hrest
  obtain _ | ⟨hx, _ | ⟨hy, hlast⟩⟩ := hbodies
  cases otherwise with
  | none => cases hlast
  | some last =>
    obtain ⟨third, zs⟩ := last
    obtain _ | ⟨hz, -⟩ := hlast
    obtain rfl : xs = [.text "x"] := (reads_plain hmarker (by decide +kernel)).1 hx
    obtain rfl : ys = [.mustache shownMustache] := (reads_shown hmarker h2).1 hy
    obtain rfl : zs = [.text "z"] := (reads_plain hmarker (by decide +kernel)).1 hz
    obtain _ | @⟨inverse, _, _, _, _, _, hend⟩ := hchains
    cases hend
    exact ⟨first, second, third, inverse, rfl, rfl, rfl⟩

end

/-- Terms stand for themselves, and a name is true if it is one of `names`. -/
def truths (names : List String) : Jsx.Semantics Jsx.Term where
  atom := id
  boolean := .boolean
  truthy
    | .boolean value => value
    | .name name => names.contains name
    | _ => true
  truthy_boolean _ := rfl

/-- The chain is accepted and in the other order is not. Where `a` and `b` are true, it shows the
second branch. -/
theorem chainSource_read_iff_elseLast :
    (∃ template, Template.read chainSource = .ok template) ∧
      (¬∃ template, Template.read swappedSource = .ok template) ∧
      ∃ statement term, Template.read chainSource = .ok [.element "p" [] [statement] false] ∧
        statement.convert {} = .ok (.term term) ∧
        (truths ["a", "b"]).eval term = .name "y" := by
  have hx : Piece.split '\ue000' ['x'] = [.text ['x']] := by decide +kernel
  have hchain : leavesChain chainSource
      [.startTag paragraphTag 1, .startTag (markerTag blockTag "0") 1, .text ['x'],
        .startTag (markerTag elseTag "1") 1, .text ['\ue000', '2', '\ue000'],
        .startTag ⟨elseTag, [], false⟩ 1, .text ['z'], .endTag blockTag 1, .endTag "p" 1] =
      true := by decide +kernel
  have hswapped : leavesChain swappedSource
      [.startTag paragraphTag 1, .startTag (markerTag blockTag "0") 1, .text ['x'],
        .startTag ⟨elseTag, [], false⟩ 1, .text ['z'], .startTag (markerTag elseTag "1") 1,
        .text ['\ue000', '2', '\ue000'], .endTag blockTag 1, .endTag "p" 1] =
      true := by decide +kernel
  have hnot : ¬∃ template, Template.read swappedSource = .ok template := by
    obtain ⟨lifted, next, hs, hmarker, htokens, hlength, h0, h1, h2⟩ :=
      exists_of_leavesChain hswapped
    have harms : ∀ arm ∈ [elseArm lifted, elseIfArm h1], ∃ body, lifted.Reads arm.inner body :=
      fun arm harm => reads_arms hmarker h1 h2 arm (by simpa [or_comm] using harm)
    have hread := read_iff_elseLast hs (chainBlock h0 [elseArm lifted, elseIfArm h1])
      (show _ = [.startTag paragraphTag 1] ++ (_ ++ [.endTag "p" 1]) from htokens)
      (marks_perm hmarker htokens hlength (by decide +kernel)) (reads_paragraph lifted)
      ⟨_, (reads_plain hmarker hx).2 rfl⟩ harms
    intro haccepted
    have hnil := ((Lifted.elseLast_cons _ _).1 (hread.1.1 haccepted)).1 rfl
    cases hnil
  obtain ⟨lifted, next, hs, hmarker, htokens, hlength, h0, h1, h2⟩ := exists_of_leavesChain hchain
  have hread := read_iff_elseLast hs (chainBlock h0 [elseIfArm h1, elseArm lifted])
    (show _ = [.startTag paragraphTag 1] ++ (_ ++ [.endTag "p" 1]) from htokens)
    (marks_perm hmarker htokens hlength (by decide +kernel)) (reads_paragraph lifted)
    ⟨_, (reads_plain hmarker hx).2 rfl⟩ (reads_arms hmarker h1 h2)
  have hlast : Lifted.ElseLast [elseIfArm h1, elseArm lifted] := (Lifted.elseLast_cons _ _).2
    ⟨fun hnone => absurd hnone (Option.some_ne_none _), List.forall_mem_nil _⟩
  obtain ⟨template, htemplate⟩ := hread.1.2 hlast
  obtain ⟨reached, statement, current, next', chain, otherwise, hbefore, hfinish, hchains, heval⟩ :=
    hread.2 hlast
  obtain rfl := eq_of_finish_paragraph hbefore (hfinish.symm.trans htemplate)
  obtain ⟨first, second, third, inverse, rfl, rfl, rfl⟩ :=
    exists_of_chains hmarker h0 h1 h2 hchains
  obtain ⟨converted, hconverted⟩ : ∃ converted,
      (chainStatement first second third inverse).convert {} = .ok converted := ⟨_, rfl⟩
  obtain ⟨term, rfl, hvalue⟩ := heval (.inr rfl) (by
    intro head hhead
    obtain rfl := List.mem_singleton.1 (show head ∈ [elseIfHead] from hhead)
    exact .inl rfl) {} converted hconverted
  have hshown : Except.ok (.name "y") = Except.ok ((truths ["a", "b"]).eval term) :=
    hvalue Jsx.Term (truths ["a", "b"])
  exact ⟨⟨_, htemplate⟩, hnot, _, term, htemplate, hconverted, (Except.ok.inj hshown).symm⟩

end Template

end MustacheJsx
