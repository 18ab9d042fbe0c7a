import MustacheJsx.Proofs.Outcome
import MustacheJsx.Proofs.Template.Numbers

/-!
# Lifted tags are numbered

A reader of expressions takes the numbers of its paths from a counter, and each tag is lifted out
once. So no number occurs twice among the tags that wait as placeholders, and all of them are below
the next free number: `Lifted.count_numbers_ofSource`.
-/

namespace MustacheJsx

/-- One for the numbers that a counter hands out on its way from `first` to `last`. -/
def handedOut (first last n : Nat) : Nat := if first ≤ n ∧ n < last then 1 else 0

theorem handedOut_le_one (first last n : Nat) : handedOut first last n ≤ 1 := by
  rw [handedOut]
  split
  · exact Nat.le_refl 1
  · exact Nat.zero_le 1

theorem lt_of_handedOut_pos {first last n : Nat} (h : 0 < handedOut first last n) : n < last := by
  rw [handedOut] at h
  split at h
  · next hn => exact hn.2
  · exact absurd h (Nat.lt_irrefl 0)

theorem handedOut_add {first middle last : Nat} (h : first ≤ middle) (h' : middle ≤ last)
    (n : Nat) : handedOut first middle n + handedOut middle last n = handedOut first last n := by
  simp only [handedOut]
  split <;> split <;> split <;> omega

theorem count_cons_next (next : Nat) (numbers : List Nat) (n : Nat) :
    (next :: numbers).count n = handedOut next (next + 1) n + numbers.count n := by
  rw [List.count_cons, handedOut]
  simp only [beq_iff_eq]
  split <;> split <;> omega

/-! ### Reading expressions -/

/-- A reader that succeeds adds to the numbers `base` only those that it takes from the counter, and
each of them once. -/
def Numbered {α : Type} (base : List Nat) (reader : ReadM α) (numbers : α → List Nat) : Prop :=
  ∀ next a last, reader.run next = (.ok a, last) →
    next ≤ last ∧ ∀ n, (numbers a).count n ≤ base.count n + handedOut next last n

namespace Numbered

variable {α β : Type} {base : List Nat}

theorem pure {a : α} {numbers : α → List Nat} (h : ∀ n, (numbers a).count n ≤ base.count n) :
    Numbered base (Pure.pure a) numbers := by
  intro next b last hr
  cases hr
  exact ⟨Nat.le_refl _, fun n => Nat.le_trans (h n) (Nat.le_add_right ..)⟩

theorem halt {fault : SyntaxFault} {rest : List Char} {numbers : α → List Nat} :
    Numbered base (halt fault rest) numbers := by
  intro next b last hr
  cases hr

theorem nextId : Numbered base nextId (fun id => id :: base) := by
  intro next id last hr
  cases hr
  refine ⟨Nat.le_succ _, fun n => ?_⟩
  have hcount := count_cons_next next base n
  dsimp only
  omega

theorem bind {reader : ReadM α} {next : α → ReadM β} {numbers : α → List Nat}
    {others : β → List Nat} (h : Numbered base reader numbers)
    (h' : ∀ a, Numbered (numbers a) (next a) others) :
    Numbered base (reader >>= next) others := by
  intro first b last hr
  rw [run_bind] at hr
  cases hf : reader.run first with
  | mk result middle =>
    rw [hf] at hr
    cases result with
    | error e => cases hr
    | ok a =>
      obtain ⟨hle, hc⟩ := h first a middle hf
      obtain ⟨hle', hc'⟩ := h' a middle b last hr
      refine ⟨Nat.le_trans hle hle', fun n => ?_⟩
      have := handedOut_add hle hle' n
      have := hc n
      have := hc' n
      omega

end Numbered

theorem Path.id_of_ofToken? {id : Nat} {token : List Char} {path : Path}
    (h : Path.ofToken? id token = some path) : path.id = id :=
  (Path.spelling_of_ofToken? h).2

namespace Expression

theorem readString_numbered {base : List Nat} (quote : Char) (cs : List Char) :
    Numbered base (readString quote cs) (fun _ => base) := by
  rw [readString]
  split
  · exact .pure fun n => Nat.le_refl _
  · exact .halt

theorem readBare_numbered {base : List Nat} (cs : List Char) :
    Numbered base (readBare cs) (fun result => base ++ result.1.numbers) := by
  rw [readBare]
  split
  split
  · exact .halt
  · split
    · exact .pure fun n => by simp [numbers, paths]
    · refine Numbered.nextId.bind fun id => ?_
      split
      · next p hp =>
        refine .pure fun n => ?_
        have hid := Path.id_of_ofToken? hp
        simp only [numbers, paths, List.map_cons, List.map_nil, hid, List.count_append,
          List.count_cons, List.count_nil]
        omega
      · exact .halt

mutual

theorem readWith_numbered {base : List Nat} (fuel : Nat) (cs : List Char) :
    Numbered base (readWith fuel cs) (fun result => base ++ result.1.numbers) := by
  match fuel with
  | 0 => exact .halt
  | fuel + 1 =>
    rw [readWith.eq_def]
    dsimp only
    split
    · refine (readWith_numbered fuel _).bind fun ⟨callee, rest⟩ => ?_
      refine (readArguments_numbered fuel _ _).bind fun ⟨params, hash, rest⟩ => ?_
      split
      · refine .pure fun n => ?_
        simp only [numbers_call, List.append_assoc]
        exact Nat.le_refl _
      · exact .halt
      · exact .halt
    · exact (readString_numbered _ _).bind fun value => .pure fun n => by simp [numbers, paths]
    · exact (readString_numbered _ _).bind fun value => .pure fun n => by simp [numbers, paths]
    · exact readBare_numbered _

theorem readArguments_numbered {base : List Nat} (fuel : Nat) (named : Bool) (cs : List Char) :
    Numbered base (readArguments fuel named cs)
      (fun result => base ++ numbersOfArguments result.1 result.2.1) := by
  match fuel with
  | 0 => exact .halt
  | fuel + 1 =>
    rw [readArguments.eq_def]
    dsimp only
    split
    · exact .pure fun n => by simp [numbersOfArguments, numbersOfParams, numbersOfHash,
        pathsOfParams, pathsOfHash]
    · exact .pure fun n => by simp [numbersOfArguments, numbersOfParams, numbersOfHash,
        pathsOfParams, pathsOfHash]
    · split
      · exact .halt
      · split
        · refine (readWith_numbered fuel _).bind fun ⟨value, rest⟩ => ?_
          refine (readArguments_numbered fuel _ _).bind fun ⟨params, hash, rest⟩ => ?_
          refine .pure fun n => ?_
          simp only [numbersOfArguments, numbersOfHash_cons, List.count_append]
          omega
        · split
          · exact .halt
          · refine (readWith_numbered fuel _).bind fun ⟨param, rest⟩ => ?_
            refine (readArguments_numbered fuel _ _).bind fun ⟨params, hash, rest⟩ => ?_
            refine .pure fun n => ?_
            simp only [numbersOfArguments, numbersOfParams_cons, List.count_append]
            omega

end

theorem readCall_numbered (cs : List Char) :
    Numbered [] (readCall cs)
      fun call => call.1.numbers ++ numbersOfArguments call.2.1 call.2.2 := by
  rw [readCall]
  refine (readWith_numbered _ _).bind fun ⟨head, rest⟩ => ?_
  refine (readArguments_numbered _ _ _).bind fun ⟨params, hash, rest⟩ => ?_
  dsimp only
  split
  · exact .pure fun n => by simp
  · exact .halt

end Expression

/-! ### Reading tags -/

def Tag.numbers : Tag → List Nat
  | .expression m => m.numbers
  | .comment _ => []
  | .partialCall call => call.numbers
  | .openBlock head => head.numbers
  | .elseBranch (some head) => head.numbers
  | .elseBranch none => []
  | .closeBlock _ => []

namespace Tag

theorem readMustache_numbered (trusting : Bool) (cs : List Char) :
    Numbered [] (readMustache trusting cs) numbers := by
  rw [readMustache]
  refine (Expression.readCall_numbered cs).bind fun ⟨head, params, hash⟩ => .pure fun n => ?_
  exact Nat.le_refl _

theorem readBlockHead_numbered (cs : List Char) :
    Numbered [] (readBlockHead cs) BlockHead.numbers := by
  rw [readBlockHead]
  refine (Expression.readCall_numbered cs).bind fun ⟨head, params, hash⟩ => ?_
  dsimp only
  split
  · exact .pure fun n => Nat.le_refl _
  · exact .halt

theorem readPartialName_numbered (cs : List Char) :
    Numbered [] (readPartialName cs) (fun _ => []) := by
  rw [readPartialName]
  split
  · exact .halt
  · exact Expression.readString_numbered _ _
  · exact Expression.readString_numbered _ _
  · exact .pure fun n => Nat.le_refl _

theorem readPartial_numbered (cs : List Char) : Numbered [] (readPartial cs) numbers := by
  rw [readPartial]
  refine (readPartialName_numbered cs).bind fun ⟨name, rest⟩ => ?_
  dsimp only
  split
  · exact .halt
  · refine (Expression.readArguments_numbered _ _ _).bind fun ⟨params, hash, rest⟩ => ?_
    dsimp only
    split
    · exact .pure fun n => by simp [numbers, PartialCall.numbers]
    · exact .halt

theorem readTrimmed_numbered (cs : List Char) : Numbered [] (readTrimmed cs) numbers := by
  rw [readTrimmed.eq_def]
  split
  · exact .halt
  · split
    · exact .halt
    · exact .halt
    · exact (readBlockHead_numbered _).bind fun head => .pure fun n => Nat.le_refl _
  · dsimp only
    split
    · exact .halt
    · exact .pure fun n => Nat.le_refl _
  · exact readPartial_numbered _
  · split
    · exact .pure fun n => Nat.le_refl _
    · exact .halt
  · exact readMustache_numbered _ _
  · split
    · exact .pure fun n => Nat.le_refl _
    · split
      · exact (readBlockHead_numbered _).bind fun head => .pure fun n => Nat.le_refl _
      · exact readMustache_numbered _ _

theorem read_numbered {content : List Char} {trusting : Bool} {offset next last : Nat} {tag : Tag}
    (h : read content trusting offset next = (.ok tag, last)) :
    next ≤ last ∧ ∀ n, tag.numbers.count n ≤ handedOut next last n := by
  rw [read.eq_def] at h
  split at h
  · cases h
    exact ⟨Nat.le_refl _, fun n => Nat.zero_le _⟩
  · have hreader : Numbered [] (if trusting = true then readMustache true (Text.trim content)
        else readTrimmed (Text.trim content)) numbers := by
      split
      · exact readMustache_numbered _ _
      · exact readTrimmed_numbered _
    dsimp only at h
    split at h
    · next tag' last' hr =>
      cases h
      obtain ⟨hle, hc⟩ := hreader next tag last hr
      exact ⟨hle, fun n => by simpa using hc n⟩
    · cases h

end Tag

/-! ### Lifting tags -/

def Placeholder.numbers : Placeholder → List Nat
  | .expression m => m.numbers
  | .partialCall call => call.numbers
  | .comment _ => []
  | .block head => head.numbers
  | .elseIf head => head.numbers

namespace Lifting

/-- The numbers of the tags that were lifted out so far. -/
def numbers (st : Lifting) : List Nat := st.placeholders.flatMap Placeholder.numbers

theorem numbers_of_placeholders {st st' : Lifting} (h : st'.placeholders = st.placeholders) :
    st'.numbers = st.numbers := by
  rw [numbers, h, numbers]

theorem count_numbers_store (st : Lifting) (placeholder : Placeholder) (n : Nat) :
    (st.store placeholder).1.numbers.count n =
      placeholder.numbers.count n + st.numbers.count n := by
  simp [store, numbers]

theorem writeInText_numbers {marker : Char} {st st' : Lifting} {tag : Tag}
    (h : writeInText marker st tag = .ok st') :
    st'.next = st.next ∧ ∀ n, st'.numbers.count n ≤ tag.numbers.count n + st.numbers.count n := by
  cases tag with
  | expression m =>
    cases h
    exact ⟨rfl, fun n => Nat.le_of_eq (count_numbers_store st (.expression m) n)⟩
  | partialCall call =>
    cases h
    exact ⟨rfl, fun n => Nat.le_of_eq (count_numbers_store st (.partialCall call) n)⟩
  | comment value =>
    cases h
    exact ⟨rfl, fun n => Nat.le_of_eq (count_numbers_store st (.comment value) n)⟩
  | openBlock head =>
    cases h
    exact ⟨rfl, fun n => Nat.le_of_eq (count_numbers_store st (.block head) n)⟩
  | elseBranch chain =>
    rw [writeInText.eq_def] at h
    dsimp only at h
    split at h
    · cases h
    · cases chain with
      | none =>
        cases h
        exact ⟨rfl, fun n => Nat.le_add_left ..⟩
      | some head =>
        cases h
        exact ⟨rfl, fun n => Nat.le_of_eq (count_numbers_store st (.elseIf head) n)⟩
  | closeBlock name =>
    rw [writeInText.eq_def] at h
    dsimp only at h
    split at h
    · cases h
    · split at h
      · cases h
        exact ⟨rfl, fun n => Nat.le_add_left ..⟩
      · cases h

theorem writeInTag_numbers {marker : Char} {st st' : Lifting} {open_ : OpenTag} {tag : Tag}
    (h : writeInTag marker st open_ tag = .ok st') :
    st'.next = st.next ∧ ∀ n, st'.numbers.count n ≤ tag.numbers.count n + st.numbers.count n := by
  cases tag with
  | comment value =>
    cases h
    exact ⟨rfl, fun n => Nat.le_add_left ..⟩
  | expression m =>
    have hstore := fun n => Nat.le_of_eq (count_numbers_store st (.expression m) n)
    rw [writeInTag.eq_def] at h
    dsimp only at h
    split at h
    · cases h
      exact ⟨rfl, hstore⟩
    · cases h
    · cases h
      exact ⟨rfl, hstore⟩
  | partialCall _ | openBlock _ | elseBranch _ | closeBlock _ => cases h

/-- What a mustache stands for, before the blanks around it are dropped. -/
theorem exists_of_stepMustache {marker : Char} {st st' : Lifting} {cs : List Char}
    {offset count : Nat} (h : stepMustache marker st cs offset = .ok (st', count)) :
    ∃ (span : Span) (tag : Tag) (next : Nat),
      Tag.read span.content span.trusting (offset + span.lead) st.next = (.ok tag, next) ∧
      ((∃ markup, writeInText marker { st with next, markup } tag = .ok st') ∨
        ∃ open_, writeInTag marker { st with next } open_ tag = .ok st') := by
  simp only [stepMustache, bind, Except.bind, pure, Except.pure] at h
  cases hs : (Span.read cs).mapError fun fault => CompileError.parse fault offset with
  | error e =>
    rw [hs] at h
    cases h
  | ok span =>
    rw [hs] at h
    dsimp only at h
    cases ht : Tag.read span.content span.trusting (offset + span.lead) st.next with
    | mk result next =>
      rw [ht] at h
      cases result with
      | error e => cases h
      | ok tag =>
        refine ⟨span, tag, next, ht, ?_⟩
        dsimp only at h
        cases hopen : st.tag with
        | none =>
          rw [hopen] at h
          dsimp only at h
          split at h
          · cases h
          · next written hw =>
            cases h
            exact .inl ⟨_, mapError_eq_ok hw⟩
        | some open_ =>
          rw [hopen] at h
          dsimp only at h
          split at h
          · cases h
          · next written hw =>
            cases h
            exact .inr ⟨open_, mapError_eq_ok hw⟩

/-- A part of lifting adds only numbers that it takes from the counter. -/
def Counts (st st' : Lifting) : Prop :=
  st.next ≤ st'.next ∧
    ∀ n, st'.numbers.count n ≤ st.numbers.count n + handedOut st.next st'.next n

theorem Counts.of_same {st st' : Lifting} (hp : st'.placeholders = st.placeholders)
    (hn : st'.next = st.next) : Counts st st' := by
  refine ⟨Nat.le_of_eq hn.symm, fun n => ?_⟩
  rw [numbers_of_placeholders hp]
  exact Nat.le_add_right ..

theorem Counts.trans {st st' st'' : Lifting} (h : Counts st st') (h' : Counts st' st'') :
    Counts st st'' := by
  refine ⟨Nat.le_trans h.1 h'.1, fun n => ?_⟩
  have := h.2 n
  have := h'.2 n
  have := handedOut_add h.1 h'.1 n
  omega

theorem stepMustache_counts {marker : Char} {st st' : Lifting} {cs : List Char}
    {offset count : Nat} (h : stepMustache marker st cs offset = .ok (st', count)) :
    Counts st st' := by
  obtain ⟨span, tag, next, ht, hw⟩ := exists_of_stepMustache h
  obtain ⟨hle, hcount⟩ := Tag.read_numbered ht
  have hwritten : st'.next = next ∧
      ∀ n, st'.numbers.count n ≤ tag.numbers.count n + st.numbers.count n := by
    rcases hw with ⟨markup, hw⟩ | ⟨open_, hw⟩
    · exact writeInText_numbers hw
    · exact writeInTag_numbers hw
  obtain ⟨rfl, hnumbers⟩ := hwritten
  refine ⟨hle, fun n => ?_⟩
  have := hcount n
  have := hnumbers n
  omega

theorem stepText_counts (st : Lifting) (c : Char) (cs : List Char) :
    Counts st (st.stepText c cs).1 := by
  rw [stepText.eq_def]
  split
  · split <;> exact .of_same rfl rfl
  · split <;> exact .of_same rfl rfl
  · exact .of_same rfl rfl

theorem stepTag_counts (st : Lifting) (open_ : OpenTag) (c : Char) (cs : List Char) :
    Counts st (st.stepTag open_ c cs).1 := by
  rw [stepTag.eq_def]
  split
  · exact .of_same rfl rfl
  · split <;> exact .of_same rfl rfl

theorem step_counts {marker : Char} {st st' : Lifting} {c : Char} {cs : List Char}
    {offset count : Nat} (h : step marker st c cs offset = .ok (st', count)) : Counts st st' := by
  rw [step.eq_def] at h
  split at h
  · cases h
    exact .of_same rfl rfl
  · exact stepMustache_counts h
  · split at h
    · have hs : st' = (st.stepText c cs).1 := by rw [Except.ok.inj h]
      rw [hs]
      exact stepText_counts st c cs
    · next open_ _ =>
      have hs : st' = (st.stepTag open_ c cs).1 := by rw [Except.ok.inj h]
      rw [hs]
      exact stepTag_counts st open_ c cs

theorem run_counts {marker : Char} {cs : List Char} {offset skip : Nat} {st st' : Lifting}
    (h : run marker offset skip st cs = .ok st') : Counts st st' := by
  induction cs generalizing offset skip st with
  | nil =>
    cases h
    exact .of_same rfl rfl
  | cons c cs ih =>
    cases skip with
    | succ skip => exact ih h
    | zero =>
      rw [run] at h
      split at h
      · next st₁ count hs => exact (step_counts hs).trans (ih h)
      · cases h

end Lifting

namespace Lifted

def numbersOf : Option Placeholder → List Nat
  | some placeholder => placeholder.numbers
  | none => []

def numbers (lifted : Lifted) : List Nat := lifted.placeholders.flatMap numbersOf

theorem exists_of_ofSource {source : List Char} {lifted : Lifted} {next : Nat}
    (h : ofSource source = .ok (lifted, next)) :
    ∃ marker st, freeMarker? source = some marker ∧ Lifting.run marker 0 0 {} source = .ok st ∧
      lifted = { markup := st.markup.reverse
                 placeholders := st.placeholders.reverse.map some
                 unquoted := st.unquoted
                 marker } ∧
      next = st.next := by
  unfold ofSource at h
  cases hfree : freeMarker? source with
  | none =>
    rw [hfree] at h
    cases h
  | some marker =>
    rw [hfree] at h
    dsimp only at h
    cases hrun : Lifting.run marker 0 0 {} source with
    | error e =>
      rw [hrun] at h
      cases h
    | ok st =>
      rw [hrun] at h
      dsimp only at h
      cases hb : st.blocks with
      | cons name blocks =>
        rw [hb] at h
        cases h
      | nil =>
        rw [hb] at h
        cases h
        exact ⟨marker, st, rfl, hrun, rfl, rfl⟩

theorem count_numbers_ofSource {source : List Char} {lifted : Lifted} {next : Nat}
    (h : ofSource source = .ok (lifted, next)) (n : Nat) :
    lifted.numbers.count n ≤ handedOut 0 next n := by
  obtain ⟨marker, st, -, hrun, rfl, rfl⟩ := exists_of_ofSource h
  have hc := (Lifting.run_counts hrun).2 n
  have hnumbers : numbers
      { markup := st.markup.reverse, placeholders := st.placeholders.reverse.map some,
        unquoted := st.unquoted, marker } =
      st.placeholders.reverse.flatMap Placeholder.numbers := by
    rw [numbers, List.flatMap_map]
    rfl
  rw [hnumbers, ((List.reverse_perm st.placeholders).flatMap_right _).count_eq]
  exact Nat.le_trans hc (Nat.le_of_eq (Nat.zero_add _))

theorem count_flatMap_set {α : Type} {f : α → List Nat} {xs : List α} {index : Nat} {old : α}
    (h : xs[index]? = some old) (new : α) (n : Nat) :
    (f old).count n + ((xs.set index new).flatMap f).count n =
      (f new).count n + (xs.flatMap f).count n := by
  induction xs generalizing index with
  | nil => cases h
  | cons x xs ih =>
    cases index with
    | zero =>
      cases h
      simp only [List.set_cons_zero, List.flatMap_cons, List.count_append]
      omega
    | succ index =>
      have := ih (show xs[index]? = some old from h)
      simp only [List.set_cons_succ, List.flatMap_cons, List.count_append]
      omega

theorem count_numbers_take {lifted rest : Lifted} {index : Nat} {found : Option Placeholder}
    (h : lifted.take index = (found, rest)) (n : Nat) :
    (numbersOf found).count n + rest.numbers.count n = lifted.numbers.count n := by
  rw [take] at h
  split at h
  · next placeholder hi =>
    cases h
    simpa only [numbersOf, numbers, List.count_nil, Nat.zero_add] using
      count_flatMap_set (f := numbersOf) hi none n
  · cases h
    simp only [numbersOf, List.count_nil, Nat.zero_add]

end Lifted

end MustacheJsx
