import MustacheJsx.Proofs.Mustache.Fuel

/-!
# Arguments that go on

A reader of arguments to which a further plain path is given reads what it has read before, and then
that path: `outcome_readArguments_append`. Only a named argument without a value would take the path
for its own.
-/

namespace MustacheJsx

theorem IsPathText.isBlank {path : List Char} (h : IsPathText path) :
    ∀ c ∈ path, Text.isBlank c = false := by
  intro c hc
  rcases h.2 c hc with rfl | hc
  · decide
  · exact isBlank_of_isPathChar hc

theorem IsPathText.not_mem {path : List Char} (h : IsPathText path) {c : Char} (hmark : c ≠ '@')
    (hchar : isPathChar c = false) : c ∉ path := by
  intro hmem
  rcases h.2 c hmem with hc | hc
  · exact hmark hc
  · rw [hc] at hchar
    cases hchar

theorem IsPathText.exists_cons {path : List Char} (h : IsPathText path) {c : Char}
    (hmark : c ≠ '@') (hchar : isPathChar c = false) : ∃ d ds, path = d :: ds ∧ d ≠ c := by
  obtain ⟨d, ds, rfl⟩ := List.exists_cons_of_ne_nil h.1
  exact ⟨d, ds, rfl, fun heq => h.not_mem hmark hchar (heq ▸ List.mem_cons_self)⟩

namespace Expression

/-! ### Tokens -/

def isOpenAfter (bracket : Bool) : List Char → Bool
  | [] => bracket
  | c :: cs => isOpenAfter (if bracket then c != ']' else c == '[') cs

theorem takeToken_of_not_mem {cs : List Char} (h : ']' ∉ cs) : takeToken true cs = (cs, []) := by
  induction cs with
  | nil => rfl
  | cons c cs ih =>
    obtain ⟨hc, hcs⟩ := not_or.1 (mt List.mem_cons.2 h)
    have hne : (c != ']') = true := bne_iff_ne.2 (Ne.symm hc)
    rw [takeToken, if_pos rfl, hne, ih hcs]

/-- A token in which a bracket is open goes on; any other one ends at a blank. -/
theorem takeToken_append_blank {text : List Char} (htext : ']' ∉ text) (bracket : Bool)
    (cs : List Char) :
    takeToken bracket (cs ++ ' ' :: text) =
      if isOpenAfter bracket (takeToken bracket cs).1 then
        ((takeToken bracket cs).1 ++ ' ' :: text, [])
      else ((takeToken bracket cs).1, (takeToken bracket cs).2 ++ ' ' :: text) := by
  induction cs generalizing bracket with
  | nil =>
    cases bracket with
    | false => rfl
    | true =>
      have hblank : ']' ∉ ' ' :: text := by simp [htext]
      exact takeToken_of_not_mem hblank
  | cons c cs ih =>
    rw [List.cons_append, takeToken, takeToken]
    cases bracket with
    | true =>
      rw [if_pos rfl, if_pos rfl, ih]
      dsimp only
      rw [isOpenAfter, if_pos rfl]
      split <;> rfl
    | false =>
      rw [if_neg Bool.false_ne_true, if_neg Bool.false_ne_true]
      by_cases hbracket : c = '['
      · rw [if_pos hbracket, if_pos hbracket, ih]
        dsimp only
        rw [isOpenAfter, if_neg Bool.false_ne_true, beq_iff_eq.2 hbracket]
        split <;> rfl
      · rw [if_neg hbracket, if_neg hbracket]
        by_cases hends : endsToken c = true
        · rw [if_pos hends, if_pos hends]
          rfl
        · rw [if_neg hends, if_neg hends, ih]
          dsimp only
          rw [isOpenAfter, if_neg Bool.false_ne_true, beq_eq_false_iff_ne.2 hbracket]
          split <;> rfl

theorem isOpenAfter_append (bracket : Bool) (cs ds : List Char) :
    isOpenAfter bracket (cs ++ ds) = isOpenAfter (isOpenAfter bracket cs) ds := by
  induction cs generalizing bracket with
  | nil => rfl
  | cons c cs ih => rw [List.cons_append, isOpenAfter, isOpenAfter, ih]

theorem isOpenAfter_of_not_mem {cs : List Char} (h : ']' ∉ cs) : isOpenAfter true cs = true := by
  induction cs with
  | nil => rfl
  | cons c cs ih =>
    obtain ⟨hc, hcs⟩ := not_or.1 (mt List.mem_cons.2 h)
    have hne : (c != ']') = true := bne_iff_ne.2 (Ne.symm hc)
    rw [isOpenAfter, if_pos rfl, hne, ih hcs]

theorem mem_of_isOpenAfter {cs : List Char} (h : isOpenAfter false cs = true) : '[' ∈ cs := by
  induction cs with
  | nil => cases h
  | cons c cs ih =>
    rw [isOpenAfter, if_neg Bool.false_ne_true] at h
    by_cases hbracket : c = '['
    · exact hbracket ▸ List.mem_cons_self
    · rw [beq_eq_false_iff_ne.2 hbracket] at h
      exact List.mem_cons_of_mem c (ih h)

theorem not_mem_number {c : Char} (hdigit : Text.isAsciiDigit c = false) (hsign : c ≠ '-')
    (hpoint : c ≠ '.') {token : List Char} {value : Double} (h : number? token = some value) :
    c ∉ token := by
  unfold number? at h
  split at h
  next negative digits hparts =>
  have hdigits : c ∉ digits := by
    intro hmem
    rw [← List.takeWhile_append_dropWhile (p := Text.isAsciiDigit) (l := digits)] at hmem
    rcases List.mem_append.1 hmem with hmem | hmem
    · rw [List.mem_takeWhile_imp hmem] at hdigit
      cases hdigit
    · dsimp only at h
      split at h
      · cases h
      · next heq _ =>
        rw [heq] at hmem
        cases hmem
      · next places heq _ =>
        rw [heq] at hmem
        split at h
        · next hall =>
          rcases List.mem_cons.1 hmem with hmem | hmem
          · exact hpoint hmem
          · rw [List.all_eq_true.1 (Bool.and_eq_true_iff.1 hall).2 c hmem] at hdigit
            cases hdigit
        · cases h
      · cases h
  split at hparts
  · cases hparts
    exact fun hmem => (List.mem_cons.1 hmem).elim hsign hdigits
  · cases hparts
    exact hdigits

theorem literal?_of_mem {c : Char} (hdigit : Text.isAsciiDigit c = false)
    (hmark : c ∉ "-.truefalsenullundefined".toList) {token : List Char} (h : c ∈ token) :
    literal? token = none := by
  have hnumber : number? token = none := by
    rw [Option.eq_none_iff_forall_ne_some]
    intro value hvalue
    refine not_mem_number hdigit ?_ ?_ hvalue h
    · rintro rfl
      exact hmark (by decide)
    · rintro rfl
      exact hmark (by decide)
  have hword : ∀ word : String, word.toList ⊆ "-.truefalsenullundefined".toList →
      token ≠ word.toList := by
    rintro word hsubset rfl
    exact hmark (hsubset h)
  rw [literal?, if_neg (hword "true" (by decide)), if_neg (hword "false" (by decide)),
    if_neg (hword "null" (by decide)), if_neg (hword "undefined" (by decide)), hnumber]
  rfl

theorem literal?_of_isOpenAfter {token : List Char} (h : isOpenAfter false token = true) :
    literal? token = none :=
  literal?_of_mem (by decide) (by decide) (mem_of_isOpenAfter h)

/-- `rest` is what is left of `cs` after a text without brackets. -/
def Unbracketed (cs rest : List Char) : Prop := ∃ before, cs = before ++ rest ∧ '[' ∉ before

theorem Unbracketed.isOpenAfter {cs rest : List Char} (h : Unbracketed cs rest) :
    isOpenAfter false cs = isOpenAfter false rest := by
  obtain ⟨before, rfl, hbefore⟩ := h
  rw [isOpenAfter_append]
  cases hopen : Expression.isOpenAfter false before with
  | false => rfl
  | true => exact absurd (mem_of_isOpenAfter hopen) hbefore

theorem unbracketed_parentSteps (cs : List Char) : Unbracketed cs (Path.parentSteps cs).2 := by
  fun_induction Path.parentSteps cs with
  | case1 cs depth rest hrest ih =>
    obtain ⟨before, hcs, hbefore⟩ := ih
    rw [hrest] at hcs
    exact ⟨'.' :: '.' :: '/' :: before, by rw [hcs]; rfl, by simp [hbefore]⟩
  | case2 => exact ⟨['.', '.'], rfl, by decide⟩
  | case3 cs => exact ⟨[], rfl, List.not_mem_nil⟩

theorem unbracketed_afterThis (cs : List Char) : Unbracketed cs (Path.afterThis cs) := by
  rw [Path.afterThis.eq_def]
  split
  · exact ⟨['.'], rfl, by decide⟩
  · exact ⟨['t', 'h', 'i', 's'], rfl, by decide⟩
  · exact ⟨['.', '/'], rfl, by decide⟩
  · exact ⟨['t', 'h', 'i', 's', '.'], rfl, by decide⟩
  · exact ⟨['t', 'h', 'i', 's', '/'], rfl, by decide⟩
  · exact ⟨[], rfl, List.not_mem_nil⟩

theorem unbracketed_dataMark (cs : List Char) : Unbracketed cs (Path.dataMark cs).2 := by
  rw [Path.dataMark.eq_def]
  split
  · exact ⟨['@'], rfl, by decide⟩
  · exact ⟨[], rfl, List.not_mem_nil⟩

theorem segmentsAfter_of_isOpenAfter {bracket : Bool} {cs : List Char}
    (h : isOpenAfter bracket cs = true) (current : List Char) :
    Path.segmentsAfter current bracket cs = none := by
  induction cs generalizing bracket current with
  | nil =>
    obtain rfl : bracket = true := h
    rfl
  | cons c cs ih =>
    rw [isOpenAfter] at h
    rw [Path.segmentsAfter]
    cases bracket with
    | true =>
      rw [if_pos rfl] at h
      rw [if_pos rfl]
      split
      · next hclose =>
        rw [bne_eq_false_iff_eq.2 hclose] at h
        exact ih h current
      · next hinside =>
        rw [bne_iff_ne.2 hinside] at h
        exact ih h (c :: current)
    | false =>
      rw [if_neg Bool.false_ne_true] at h
      rw [if_neg Bool.false_ne_true]
      split
      · next hopen =>
        rw [beq_iff_eq.2 hopen] at h
        exact ih h current
      · next hopen =>
        rw [beq_eq_false_iff_ne.2 hopen] at h
        split
        · split
          · rfl
          · rw [ih h []]
            rfl
        · exact ih h (c :: current)

theorem pathOfToken?_of_isOpenAfter {token : List Char} (h : isOpenAfter false token = true)
    (id : Nat) : Path.ofToken? id token = none := by
  have hparts : isOpenAfter false
      (Path.afterThis (Path.parentSteps (Path.dataMark token).2).2) = true := by
    rw [← (unbracketed_afterThis _).isOpenAfter, ← (unbracketed_parentSteps _).isOpenAfter,
      ← (unbracketed_dataMark _).isOpenAfter]
    exact h
  have hsegments : Path.segments?
      (Path.afterThis (Path.parentSteps (Path.dataMark token).2).2) = none := by
    rw [Path.segments?.eq_def]
    split
    · next hnil =>
      rw [hnil] at hparts
      cases hparts
    · next hcons =>
      rw [hcons] at hparts
      exact segmentsAfter_of_isOpenAfter hparts []
  rw [Path.ofToken?]
  dsimp only
  rw [hsegments]
  rfl

/-! ### One more path -/

section Appending

variable {path : List Char}

def leaving {α : Type} (text : List Char) (read : (α × List Char) × Nat) : (α × List Char) × Nat :=
  ((read.1.1, read.1.2 ++ text), read.2)

def ofToken? (token : List Char) (first : Nat) : Option (Expression × Nat) :=
  if token.isEmpty then none
  else
    match literal? token with
    | some value => some (.literal value, first)
    | none => (Path.ofToken? first token).map fun path => (.path path, first + 1)

theorem outcome_readBare (cs : List Char) (first : Nat) :
    outcome (readBare cs) first =
      (ofToken? (takeToken false cs).1 first).map fun read =>
        ((read.1, (takeToken false cs).2), read.2) := by
  rw [readBare]
  generalize takeToken false cs = cut
  obtain ⟨token, rest⟩ := cut
  dsimp only
  rw [ofToken?]
  split
  · rfl
  · cases literal? token with
    | some value => rfl
    | none =>
      have hid : outcome nextId first = some (first, first + 1) := rfl
      dsimp only
      rw [outcome_bind, hid, Option.bind_some]
      dsimp only
      cases Path.ofToken? first token <;> rfl

theorem ofToken?_of_isOpenAfter {token : List Char} (h : isOpenAfter false token = true)
    (first : Nat) : ofToken? token first = none := by
  rw [ofToken?, literal?_of_isOpenAfter h, pathOfToken?_of_isOpenAfter h]
  split <;> rfl

theorem outcome_readBare_append (h : IsPathText path) (cs : List Char) (first : Nat) :
    outcome (readBare (cs ++ ' ' :: path)) first =
      (outcome (readBare cs) first).map (leaving (' ' :: path)) := by
  have hbracket : ']' ∉ path := h.not_mem (by decide) (by decide)
  rw [outcome_readBare, outcome_readBare, takeToken_append_blank hbracket]
  generalize takeToken false cs = cut
  obtain ⟨token, rest⟩ := cut
  dsimp only
  split
  · next hopen =>
    have hlonger : isOpenAfter false (token ++ ' ' :: path) = true := by
      rw [isOpenAfter_append, hopen]
      exact isOpenAfter_of_not_mem (by simp [hbracket])
    rw [ofToken?_of_isOpenAfter hopen, ofToken?_of_isOpenAfter hlonger]
    rfl
  · rw [Option.map_map]
    rfl

theorem takeString_cons {quote c : Char} (hslash : c ≠ '\\') (cs : List Char) :
    takeString quote (c :: cs) =
      if c = quote then some ([], cs)
      else (takeString quote cs).map fun read => (c :: read.1, read.2) := by
  rw [takeString]
  · rintro rfl
    exact absurd rfl hslash
  · rintro d ds rfl
    exact absurd rfl hslash

theorem ne_slash {c : Char} {cs : List Char} (hlast : c = '\\' → cs = [] → False)
    (hescape : ∀ d ds, c = '\\' → cs = d :: ds → False) : c ≠ '\\' := by
  intro hslash
  cases cs with
  | nil => exact hlast hslash rfl
  | cons d ds => exact hescape d ds hslash rfl

theorem takeString_eq_none {quote : Char} {cs : List Char} (h : quote ∉ cs) :
    takeString quote cs = none := by
  fun_induction takeString quote cs with
  | case1 => rfl
  | case2 => rfl
  | case3 c cs ih => rw [ih fun hmem => h (by simp [hmem])]; rfl
  | case4 cs => exact absurd List.mem_cons_self h
  | case5 c cs _ _ _ ih => rw [ih fun hmem => h (List.mem_cons_of_mem c hmem)]; rfl

theorem takeString_append {quote : Char} {text : List Char} (h : quote ∉ text) (cs : List Char) :
    takeString quote (cs ++ text) =
      (takeString quote cs).map fun read => (read.1, read.2 ++ text) := by
  fun_induction takeString quote cs with
  | case1 => exact takeString_eq_none h
  | case2 =>
    cases text with
    | nil => rfl
    | cons c text =>
      rw [List.singleton_append, takeString,
        takeString_eq_none fun hmem => h (List.mem_cons_of_mem c hmem)]
      rfl
  | case3 c cs ih =>
    rw [List.cons_append, List.cons_append, takeString, ih, Option.map_map, Option.map_map]
    rfl
  | case4 cs hlast hescape =>
    rw [List.cons_append, takeString_cons (ne_slash hlast hescape), if_pos rfl]
    rfl
  | case5 c cs hlast hescape hc ih =>
    have hslash := ne_slash hlast hescape
    rw [List.cons_append, takeString_cons hslash, if_neg hc, ih, Option.map_map, Option.map_map]
    rfl

theorem outcome_readString (quote : Char) (cs : List Char) (first : Nat) :
    outcome (readString quote cs) first =
      (takeString quote cs).map fun read => ((String.ofList read.1, read.2), first) := by
  rw [readString]
  cases takeString quote cs <;> rfl

theorem outcome_readString_append {quote : Char} {text : List Char} (h : quote ∉ text)
    (cs : List Char) (first : Nat) :
    outcome (readString quote (cs ++ text)) first =
      (outcome (readString quote cs) first).map (leaving text) := by
  rw [outcome_readString, outcome_readString, takeString_append h, Option.map_map, Option.map_map]
  rfl

theorem trimStart_append_path (h : IsPathText path) (cs : List Char) :
    Text.trimStart (cs ++ ' ' :: path) =
      if (Text.trimStart cs).isEmpty then path else Text.trimStart cs ++ ' ' :: path := by
  induction cs with
  | nil =>
    obtain ⟨c, path, rfl⟩ := List.exists_cons_of_ne_nil h.1
    exact Text.trimStart_space_cons path (h.isBlank c List.mem_cons_self)
  | cons c cs ih =>
    rw [List.cons_append, Text.trimStart, List.dropWhile_cons]
    cases hc : Text.isBlank c with
    | true =>
      rw [if_pos rfl, Text.trimStart, List.dropWhile_cons, hc, if_pos rfl]
      exact ih
    | false =>
      rw [if_neg Bool.false_ne_true, Text.trimStart_cons_of_not_blank cs hc]
      rfl

theorem head?_trimStart_append_path (h : IsPathText path) {c : Char} (hc : c ∉ path)
    (cs : List Char) :
    ((Text.trimStart (cs ++ ' ' :: path)).head? == some c) =
      ((Text.trimStart cs).head? == some c) := by
  rw [trimStart_append_path h]
  cases hcs : Text.trimStart cs with
  | nil =>
    obtain ⟨d, path, rfl⟩ := List.exists_cons_of_ne_nil h.1
    have hne : d ≠ c := fun heq => hc (heq ▸ List.mem_cons_self)
    simp [hne]
  | cons d ds => rfl

theorem atBlockParameters_append_path (h : IsPathText path) (cs : List Char) :
    atBlockParameters (cs ++ ' ' :: path) = atBlockParameters cs := by
  have hbar : '|' ∉ path := h.not_mem (by decide) (by decide)
  have hnone : ∀ ds : List Char, (∀ c rest, ds ≠ 'a' :: 's' :: c :: rest) →
      atBlockParameters ds = false := by
    intro ds hds
    rw [atBlockParameters.eq_def]
    split
    · exact absurd rfl (hds _ _)
    · rfl
  by_cases hword : ∃ c rest, cs ++ ' ' :: path = 'a' :: 's' :: c :: rest
  · obtain ⟨c, rest, hcs⟩ := hword
    match cs with
    | [] => cases hcs
    | [d] => cases hcs
    | [d, e] =>
      obtain ⟨hd, he⟩ := List.cons.inj hcs
      obtain ⟨he, -⟩ := List.cons.inj he
      rw [hd, he]
      exact head?_trimStart_append_path h hbar []
    | d :: e :: f :: cs =>
      obtain ⟨hd, he⟩ := List.cons.inj hcs
      obtain ⟨he, -⟩ := List.cons.inj he
      rw [hd, he]
      exact congrArg (Text.isBlank f && ·) (head?_trimStart_append_path h hbar cs)
  · rw [hnone _ fun c rest heq => hword ⟨c, rest, heq⟩, hnone]
    rintro c rest rfl
    exact hword ⟨c, rest ++ ' ' :: path, rfl⟩

theorem takeKey?_of_equals {cs rest : List Char}
    (h : Text.trimStart (cs.dropWhile isKeyChar) = '=' :: rest) :
    takeKey? cs =
      if (cs.takeWhile isKeyChar).isEmpty then none
      else some (String.ofList (cs.takeWhile isKeyChar), Text.trimStart rest) := by
  rw [takeKey?, h]
  rfl

theorem takeKey?_of_not_equals {cs : List Char}
    (h : ∀ rest, Text.trimStart (cs.dropWhile isKeyChar) ≠ '=' :: rest) : takeKey? cs = none := by
  rw [takeKey?]
  split
  · next hequals => exact absurd hequals (h _)
  · rfl

theorem takeKey?_append_path (h : IsPathText path) (cs : List Char) :
    takeKey? (cs ++ ' ' :: path) =
      (takeKey? cs).map fun named =>
        (named.1, if named.2.isEmpty then path else named.2 ++ ' ' :: path) := by
  have hblank : ¬ isKeyChar ' ' = true := by decide
  have htake : (cs ++ ' ' :: path).takeWhile isKeyChar = cs.takeWhile isKeyChar := by
    rw [List.takeWhile_append, List.takeWhile_cons_of_neg hblank, List.append_nil]
    split
    · next hall => exact ((List.takeWhile_prefix isKeyChar).eq_of_length hall).symm
    · rfl
  have hdrop : (cs ++ ' ' :: path).dropWhile isKeyChar = cs.dropWhile isKeyChar ++ ' ' :: path := by
    rw [List.dropWhile_append, List.dropWhile_cons_of_neg hblank]
    split
    · next hall => rw [List.isEmpty_iff.1 hall]; rfl
    · rfl
  have htrim := trimStart_append_path h (cs.dropWhile isKeyChar)
  rw [← hdrop] at htrim
  have hequals : '=' ∉ path := h.not_mem (by decide) (by decide)
  by_cases hvalue : ∃ rest, Text.trimStart (cs.dropWhile isKeyChar) = '=' :: rest
  · obtain ⟨rest, hrest⟩ := hvalue
    rw [hrest, List.isEmpty_cons, if_neg Bool.false_ne_true, List.cons_append] at htrim
    rw [takeKey?_of_equals hrest, takeKey?_of_equals htrim, htake,
      trimStart_append_path h]
    split <;> rfl
  · have hrest : ∀ rest, Text.trimStart (cs.dropWhile isKeyChar) ≠ '=' :: rest :=
      fun rest heq => hvalue ⟨rest, heq⟩
    rw [takeKey?_of_not_equals hrest, takeKey?_of_not_equals]
    · rfl
    · intro rest heq
      rw [htrim] at heq
      split at heq
      · exact hequals (heq ▸ List.mem_cons_self)
      · next hempty =>
        obtain ⟨c, ds, hcons⟩ := List.exists_cons_of_ne_nil (mt List.isEmpty_iff.2 hempty)
        rw [hcons] at heq
        exact hrest ds (by rw [hcons, (List.cons.inj heq).1])

theorem beginsToken_of_mem_path (h : IsPathText path) : ∀ c ∈ path, beginsToken c = true := by
  intro c hc
  have hne : ∀ d, d ≠ '@' → isPathChar d = false → c ≠ d := by
    rintro d hmark hchar rfl
    exact h.not_mem hmark hchar hc
  simp [Expression.beginsToken, endsToken, h.isBlank c hc, hne '(' (by decide) (by decide),
    hne ')' (by decide) (by decide), hne '=' (by decide) (by decide),
    hne '|' (by decide) (by decide), hne '}' (by decide) (by decide),
    hne '"' (by decide) (by decide), hne '\'' (by decide) (by decide)]

theorem unbroken_path (h : IsPathText path) : Unbroken path := by
  have hbracket : '[' ∉ path := h.not_mem (by decide) (by decide)
  have hends : ∀ c ∈ path, endsToken c = false := by
    intro c hc
    have hbegins := beginsToken_of_mem_path h c hc
    simp only [Expression.beginsToken, Bool.and_eq_true, Bool.not_eq_true'] at hbegins
    exact hbegins.1.1
  clear h
  induction path with
  | nil => exact unbroken_nil
  | cons c path ih =>
    obtain ⟨hc, hpath⟩ := List.forall_mem_cons.1 hends
    obtain ⟨hfirst, hmore⟩ := not_or.1 (mt List.mem_cons.2 hbracket)
    exact (unbroken_singleton (Ne.symm hfirst) hc).append (ih hmore hpath)

theorem takeToken_path (h : IsPathText path) : takeToken false path = (path, []) := by
  have htoken := unbroken_path h []
  rw [List.append_nil] at htoken
  rw [htoken]
  exact congrArg (·, []) (List.append_nil path)

theorem outcome_readWith_path (h : IsPathText path) (fuel : Nat) (first : Nat) :
    outcome (readWith (fuel + 1) path) first =
      (ofToken? path first).map fun read => ((read.1, []), read.2) := by
  have htoken := takeToken_path h
  obtain ⟨c, cs, rfl⟩ := List.exists_cons_of_ne_nil h.1
  rw [readWith_token (beginsToken_of_mem_path h c List.mem_cons_self), outcome_readBare, htoken]

def hasRest (read : (List Expression × Hash × List Char) × Nat) : Bool := !read.1.2.2.isEmpty

def leavingArguments (text : List Char) (read : (List Expression × Hash × List Char) × Nat) :
    (List Expression × Hash × List Char) × Nat :=
  ((read.1.1, read.1.2.1, read.1.2.2 ++ text), read.2)

def closing? : List Char → Option (List Char)
  | ')' :: rest => some rest
  | _ => none

theorem closing?_of_ne {c : Char} (h : c ≠ ')') (cs : List Char) : closing? (c :: cs) = none := by
  rw [closing?.eq_def]
  split
  · next heq => exact absurd (List.cons.inj heq).1 h
  · rfl

/-- The call that ends with a parenthesis after its arguments. -/
def closed (callee : Expression) (read : (List Expression × Hash × List Char) × Nat) :
    Option ((Expression × List Char) × Nat) :=
  (closing? (Text.trimStart read.1.2.2)).map fun rest =>
    ((.call callee read.1.1 read.1.2.1, rest), read.2)

theorem outcome_readWith_paren (fuel : Nat) (cs : List Char) (first : Nat) :
    outcome (readWith (fuel + 1) ('(' :: cs)) first =
      (outcome (readWith fuel (Text.trimStart cs)) first).bind fun callee =>
        (outcome (readArguments fuel false callee.1.2) callee.2).bind (closed callee.1.1) := by
  rw [readWith.eq_def]
  refine (outcome_bind _ _).trans (Option.bind_congr fun ⟨⟨callee, rest⟩, middle⟩ _ => ?_)
  refine (outcome_bind _ _).trans (Option.bind_congr fun ⟨⟨params, hash, rest'⟩, last⟩ _ => ?_)
  rw [closed]
  dsimp only
  cases Text.trimStart rest' with
  | nil => rfl
  | cons c more =>
    by_cases hc : c = ')'
    · subst hc
      rfl
    · rw [closing?_of_ne hc]
      split
      · next heq => exact absurd (List.cons.inj heq).1 hc
      · rfl
      · next heq => cases heq

theorem outcome_readWith_quote {quote : Char} (hquote : quote = '"' ∨ quote = '\'') (fuel : Nat)
    (cs : List Char) (first : Nat) :
    outcome (readWith (fuel + 1) (quote :: cs)) first =
      (outcome (readString quote cs) first).map fun read =>
        ((.literal (.string read.1.1), read.1.2), read.2) := by
  rw [readWith.eq_def, Option.map_eq_bind]
  rcases hquote with rfl | rfl
  · exact outcome_bind _ _
  · exact outcome_bind _ _

theorem readWith_eq_readBare {cs : List Char} (h : ∀ c ∈ cs.head?, c ≠ '(' ∧ c ≠ '"' ∧ c ≠ '\'')
    (fuel : Nat) : readWith (fuel + 1) cs = readBare cs := by
  rw [readWith.eq_def]
  dsimp only
  split
  · exact absurd rfl (h _ rfl).1
  · exact absurd rfl (h _ rfl).2.1
  · exact absurd rfl (h _ rfl).2.2
  · rfl

theorem closed_of_not_hasRest (callee : Expression)
    {read : (List Expression × Hash × List Char) × Nat} (h : ¬ hasRest read = true) :
    closed callee read = none := by
  obtain ⟨⟨params, hash, rest⟩, last⟩ := read
  rw [hasRest, Bool.not_eq_true', Bool.not_eq_false, List.isEmpty_iff] at h
  obtain rfl : rest = [] := h
  rfl

theorem closed_leaving (h : IsPathText path) (callee : Expression)
    (read : (List Expression × Hash × List Char) × Nat) :
    closed callee (leavingArguments (' ' :: path) read) =
      (closed callee read).map (leaving (' ' :: path)) := by
  obtain ⟨⟨params, hash, rest⟩, last⟩ := read
  rw [closed, closed, leavingArguments]
  dsimp only
  rw [trimStart_append_path h]
  cases Text.trimStart rest with
  | nil =>
    obtain ⟨c, path, rfl, hc⟩ := h.exists_cons (c := ')') (by decide) (by decide)
    rw [List.isEmpty_nil, if_pos rfl, closing?_of_ne hc]
    rfl
  | cons c more =>
    rw [List.isEmpty_cons, if_neg Bool.false_ne_true, List.cons_append]
    by_cases hc : c = ')'
    · subst hc
      rfl
    · rw [closing?_of_ne hc, closing?_of_ne hc]
      rfl

theorem bind_eq_bind_filter {α β : Type} (o : Option α) {p : α → Bool} {f : α → Option β}
    (h : ∀ a, ¬ p a = true → f a = none) : o.bind f = (o.filter p).bind f := by
  cases o with
  | none => rfl
  | some a =>
    rw [Option.filter_some]
    split
    · rfl
    · next hp => exact h a hp

def withNamed (key : String) (value : Expression)
    (read : (List Expression × Hash × List Char) × Nat) :
    (List Expression × Hash × List Char) × Nat :=
  ((read.1.1, (key, value) :: read.1.2.1, read.1.2.2), read.2)

def withParam (param : Expression) (read : (List Expression × Hash × List Char) × Nat) :
    (List Expression × Hash × List Char) × Nat :=
  ((param :: read.1.1, read.1.2.1, read.1.2.2), read.2)

theorem hasRest_withNamed (key : String) (value : Expression)
    (read : (List Expression × Hash × List Char) × Nat) :
    hasRest (withNamed key value read) = hasRest read := rfl

theorem hasRest_withParam (param : Expression)
    (read : (List Expression × Hash × List Char) × Nat) :
    hasRest (withParam param read) = hasRest read := rfl

def outcomeOfArgument (fuel : Nat) (named : Bool) (cs : List Char) (first : Nat) :
    Option ((List Expression × Hash × List Char) × Nat) :=
  if atBlockParameters cs then none
  else
    match takeKey? cs with
    | some (key, rest) =>
      (outcome (readWith fuel rest) first).bind fun value =>
        (outcome (readArguments fuel true value.1.2) value.2).map (withNamed key value.1.1)
    | none =>
      if named then none
      else
        (outcome (readWith fuel cs) first).bind fun param =>
          (outcome (readArguments fuel false param.1.2) param.2).map (withParam param.1.1)

theorem outcome_readArguments_nil {cs : List Char} (h : Text.trimStart cs = []) (fuel : Nat)
    (named : Bool) (first : Nat) :
    outcome (readArguments (fuel + 1) named cs) first = some (([], [], []), first) := by
  rw [readArguments.eq_def]
  dsimp only
  rw [h]
  rfl

theorem outcome_readArguments_close {cs rest : List Char} (h : Text.trimStart cs = ')' :: rest)
    (fuel : Nat) (named : Bool) (first : Nat) :
    outcome (readArguments (fuel + 1) named cs) first = some (([], [], ')' :: rest), first) := by
  rw [readArguments.eq_def]
  dsimp only
  rw [h]
  rfl

theorem outcome_readArguments_argument {cs rest : List Char} {c : Char}
    (h : Text.trimStart cs = c :: rest) (hc : c ≠ ')') (fuel : Nat) (named : Bool) (first : Nat) :
    outcome (readArguments (fuel + 1) named cs) first =
      outcomeOfArgument fuel named (c :: rest) first := by
  rw [readArguments.eq_def]
  dsimp only
  rw [h, outcomeOfArgument]
  split
  · next heq => cases heq
  · next heq => exact absurd (List.cons.inj heq).1 hc
  · split
    · rfl
    · cases takeKey? (c :: rest) with
      | none =>
        dsimp only
        split
        · rfl
        · refine (outcome_bind _ _).trans (Option.bind_congr fun read _ => ?_)
          exact (outcome_bind _ _).trans (Option.map_eq_bind ..).symm
      | some found =>
        refine (outcome_bind _ _).trans (Option.bind_congr fun read _ => ?_)
        exact (outcome_bind _ _).trans (Option.map_eq_bind ..).symm

theorem outcome_readCall (cs : List Char) (first : Nat) :
    outcome (readCall cs) first =
      (outcome (readWith (fuelFor cs) (Text.trimStart cs)) first).bind fun head =>
        (outcome (readArguments (fuelFor cs) false head.1.2) head.2).bind fun read =>
          if read.1.2.2.isEmpty then some ((head.1.1, read.1.1, read.1.2.1), read.2) else none := by
  rw [readCall]
  refine (outcome_bind _ _).trans (Option.bind_congr fun head _ => ?_)
  refine (outcome_bind _ _).trans (Option.bind_congr fun read _ => ?_)
  obtain ⟨⟨params, hash, rest'⟩, last⟩ := read
  cases rest' <;> rfl

/-- A call that is read consists of a head and of arguments that reach the end. -/
theorem exists_of_readCall {cs : List Char} {first last : Nat} {head : Expression}
    {params : List Expression} {hash : Hash}
    (h : outcome (readCall cs) first = some ((head, params, hash), last)) : ∃ rest middle,
      outcome (readWith (fuelFor cs) (Text.trimStart cs)) first = some ((head, rest), middle) ∧
        outcome (readArguments (fuelFor cs) false rest) middle =
          some ((params, hash, []), last) := by
  rw [outcome_readCall] at h
  obtain ⟨⟨⟨head, rest⟩, middle⟩, hhead, h⟩ := Option.bind_eq_some_iff.1 h
  obtain ⟨⟨⟨params, hash, rest'⟩, last'⟩, harguments, h⟩ := Option.bind_eq_some_iff.1 h
  dsimp only at harguments h
  split at h
  · next hempty =>
    cases h
    obtain rfl := List.isEmpty_iff.1 hempty
    exact ⟨rest, middle, hhead, harguments⟩
  · cases h

theorem outcome_readArguments_path (h : IsPathText path) {cs : List Char}
    (hcs : Text.trimStart cs = path) (fuel : Nat) (named : Bool) (first : Nat) :
    outcome (readArguments (fuel + 1) named cs) first =
      outcomeOfArgument fuel named path first := by
  obtain ⟨c, ds, rfl, hc⟩ := h.exists_cons (c := ')') (by decide) (by decide)
  exact outcome_readArguments_argument hcs hc fuel named first

theorem filter_bind {α β : Type} (o : Option α) (f : α → Option β) (p : β → Bool) :
    (o.bind f).filter p = o.bind fun a => (f a).filter p := by
  cases o <;> rfl

theorem filter_map_of {α : Type} {o : Option α} {g : α → α} {p : α → Bool}
    (h : ∀ a, p (g a) = p a) : (o.map g).filter p = (o.filter p).map g := by
  cases o with
  | none => rfl
  | some a =>
    rw [Option.map_some, Option.filter_some, Option.filter_some, h]
    split <;> rfl

/-- What is added to arguments does not matter for what they leave over. -/
theorem filter_hasRest_map {o o' : Option ((List Expression × Hash × List Char) × Nat)}
    {g : (List Expression × Hash × List Char) × Nat → (List Expression × Hash × List Char) × Nat}
    {text : List Char} (hrest : ∀ read, hasRest (g read) = hasRest read)
    (hleaving : ∀ read, g (leavingArguments text read) = leavingArguments text (g read))
    (h : o'.filter hasRest = (o.filter hasRest).map (leavingArguments text)) :
    (o'.map g).filter hasRest = ((o.map g).filter hasRest).map (leavingArguments text) := by
  rw [filter_map_of hrest, filter_map_of hrest, h, Option.map_map, Option.map_map]
  exact congrArg (Option.map · _) (funext hleaving)

theorem atBlockParameters_path (h : IsPathText path) : atBlockParameters path = false := by
  rw [atBlockParameters.eq_def]
  split
  · rw [h.isBlank _ (by simp), Bool.false_and]
  · rfl

theorem takeKey?_path (h : IsPathText path) : takeKey? path = none := by
  refine takeKey?_of_not_equals fun rest hrest => ?_
  have hsub : '=' ∈ path := by
    have hmem : '=' ∈ Text.trimStart (path.dropWhile isKeyChar) := hrest ▸ List.mem_cons_self
    exact (List.dropWhile_suffix _).subset ((List.dropWhile_suffix _).subset hmem)
  exact h.not_mem (by decide) (by decide) hsub

theorem outcomeOfArgument_path (h : IsPathText path) (fuel first : Nat) :
    outcomeOfArgument (fuel + 1) false path first =
      (ofToken? path first).map fun read => (([read.1], [], []), read.2) := by
  rw [outcomeOfArgument, atBlockParameters_path h, takeKey?_path h, if_neg Bool.false_ne_true]
  dsimp only
  rw [if_neg Bool.false_ne_true, outcome_readWith_path h, Option.bind_map, Option.map_eq_bind]
  refine Option.bind_congr fun read _ => ?_
  show (outcome (readArguments (fuel + 1) false []) read.2).map _ = _
  rw [outcome_readArguments_nil rfl]
  rfl

theorem filter_outcomeOfArgument_path (h : IsPathText path) (fuel : Nat) (named : Bool)
    (first : Nat) : (outcomeOfArgument fuel named path first).filter hasRest = none := by
  cases named with
  | true =>
    rw [outcomeOfArgument, atBlockParameters_path h, takeKey?_path h]
    rfl
  | false =>
    cases fuel with
    | zero =>
      rw [outcomeOfArgument, atBlockParameters_path h, takeKey?_path h]
      rfl
    | succ fuel =>
      rw [outcomeOfArgument_path h]
      cases ofToken? path first <;> rfl

theorem outcome_readWith_nil (fuel first : Nat) : outcome (readWith fuel []) first = none := by
  cases fuel with
  | zero => rfl
  | succ fuel =>
    rw [readWith_eq_readBare fun c hc => by cases hc]
    rfl

/-- After a path that is the value of a named argument nothing is left over. -/
theorem filter_named_path (h : IsPathText path) (fuel : Nat) (key : String) (first : Nat) :
    ((outcome (readWith fuel path) first).bind fun value =>
      (outcome (readArguments fuel true value.1.2) value.2).map
        (withNamed key value.1.1)).filter hasRest = none := by
  cases fuel with
  | zero => rfl
  | succ fuel =>
    rw [outcome_readWith_path h, Option.bind_map, filter_bind]
    refine Option.bind_eq_none_iff.2 fun read _ => ?_
    show ((outcome (readArguments (fuel + 1) true []) read.2).map _).filter hasRest = none
    rw [outcome_readArguments_nil rfl]
    rfl

mutual

theorem outcome_readWith_append (h : IsPathText path) (fuel : Nat) (cs : List Char) (first : Nat) :
    outcome (readWith fuel (cs ++ ' ' :: path)) first =
      (outcome (readWith fuel cs) first).map (leaving (' ' :: path)) := by
  match fuel with
  | 0 => rfl
  | fuel + 1 =>
    by_cases hparen : ∃ ds, cs = '(' :: ds
    · obtain ⟨ds, rfl⟩ := hparen
      rw [List.cons_append, outcome_readWith_paren, outcome_readWith_paren,
        trimStart_append_path h, Option.map_bind]
      split
      -- Without a callee before the path the path is one, and nothing closes the call.
      · next hempty =>
        rw [List.isEmpty_iff.1 hempty]
        match fuel with
        | 0 => rfl
        | fuel + 1 =>
          rw [outcome_readWith_path h, outcome_readWith_nil, Option.bind_map]
          refine Option.bind_eq_none_iff.2 fun read _ => ?_
          rfl
      · rw [outcome_readWith_append h fuel, Option.bind_map]
        refine Option.bind_congr fun ⟨⟨callee, rest⟩, middle⟩ _ => ?_
        have hmore := outcome_readArguments_leaving h fuel false rest middle
        show (outcome (readArguments fuel false (rest ++ ' ' :: path)) middle).bind
          (closed callee) =
            ((outcome (readArguments fuel false rest) middle).bind (closed callee)).map _
        rw [bind_eq_bind_filter _ fun _ => closed_of_not_hasRest callee, hmore, Option.bind_map,
          bind_eq_bind_filter (outcome (readArguments fuel false rest) middle)
            fun _ => closed_of_not_hasRest callee, Option.map_bind]
        exact Option.bind_congr fun read _ => closed_leaving h callee read
    · by_cases hquoted : ∃ quote ds, cs = quote :: ds ∧ (quote = '"' ∨ quote = '\'')
      · obtain ⟨quote, ds, rfl, hquote⟩ := hquoted
        have hnot : quote ∉ ' ' :: path := by
          rcases hquote with rfl | rfl
          · simp [h.not_mem (c := '"') (by decide) (by decide)]
          · simp [h.not_mem (c := '\'') (by decide) (by decide)]
        rw [List.cons_append, outcome_readWith_quote hquote, outcome_readWith_quote hquote,
          outcome_readString_append hnot, Option.map_map, Option.map_map]
        rfl
      · have hbare : ∀ c ds, cs = c :: ds → c ≠ '(' ∧ c ≠ '"' ∧ c ≠ '\'' := fun c ds hcs =>
          ⟨fun hc => hparen ⟨ds, by rw [hcs, hc]⟩, fun hc => hquoted ⟨c, ds, hcs, .inl hc⟩,
            fun hc => hquoted ⟨c, ds, hcs, .inr hc⟩⟩
        rw [readWith_eq_readBare, readWith_eq_readBare]
        · exact outcome_readBare_append h cs first
        · rintro c hc
          obtain ⟨ds, rfl⟩ := List.head?_eq_some_iff.1 hc
          exact hbare c ds rfl
        · cases cs with
          | nil =>
            rintro c ⟨⟩
            decide
          | cons c ds =>
            rintro d ⟨⟩
            exact hbare c ds rfl

/-- Arguments in parentheses end before the path or not at all. -/
theorem outcome_readArguments_leaving (h : IsPathText path) (fuel : Nat) (named : Bool)
    (cs : List Char) (first : Nat) :
    (outcome (readArguments fuel named (cs ++ ' ' :: path)) first).filter hasRest =
      ((outcome (readArguments fuel named cs) first).filter hasRest).map
        (leavingArguments (' ' :: path)) := by
  match fuel with
  | 0 => rfl
  | fuel + 1 =>
    have htrim := trimStart_append_path h cs
    cases hcs : Text.trimStart cs with
    | nil =>
      rw [hcs, List.isEmpty_nil, if_pos rfl] at htrim
      rw [outcome_readArguments_nil hcs, outcome_readArguments_path h htrim,
        filter_outcomeOfArgument_path h]
      rfl
    | cons c ds =>
      rw [hcs, List.isEmpty_cons, if_neg Bool.false_ne_true, List.cons_append] at htrim
      by_cases hc : c = ')'
      · subst hc
        rw [outcome_readArguments_close hcs, outcome_readArguments_close htrim]
        rfl
      · rw [outcome_readArguments_argument hcs hc, outcome_readArguments_argument htrim hc,
          outcomeOfArgument, outcomeOfArgument, ← List.cons_append,
          atBlockParameters_append_path h, takeKey?_append_path h]
        split
        · rfl
        · cases hkey : takeKey? (c :: ds) with
          | none =>
            rw [Option.map_none]
            dsimp only
            split
            · rfl
            · rw [outcome_readWith_append h fuel, Option.bind_map, filter_bind, filter_bind,
                Option.map_bind]
              refine Option.bind_congr fun ⟨⟨param, rest⟩, middle⟩ _ => ?_
              have hmore := outcome_readArguments_leaving h fuel false rest middle
              exact filter_hasRest_map (hasRest_withParam param) (fun _ => rfl) hmore
          | some found =>
            obtain ⟨key, rest⟩ := found
            rw [Option.map_some]
            dsimp only
            cases rest with
            | nil =>
              rw [List.isEmpty_nil, if_pos rfl, filter_named_path h, outcome_readWith_nil]
              rfl
            | cons d rest =>
              rw [List.isEmpty_cons, if_neg Bool.false_ne_true, outcome_readWith_append h fuel,
                Option.bind_map, filter_bind, filter_bind, Option.map_bind]
              refine Option.bind_congr fun ⟨⟨value, rest'⟩, middle⟩ _ => ?_
              have hmore := outcome_readArguments_leaving h fuel true rest' middle
              exact filter_hasRest_map (hasRest_withNamed key value) (fun _ => rfl) hmore

end

theorem outcomeOfArgument_positional {fuel : Nat} {cs : List Char} {first last : Nat}
    {params : List Expression} {rest : List Char} :
    outcomeOfArgument fuel false cs first = some ((params, [], rest), last) ↔
      atBlockParameters cs = false ∧ takeKey? cs = none ∧ ∃ param rest' middle others,
        outcome (readWith fuel cs) first = some ((param, rest'), middle) ∧
        outcome (readArguments fuel false rest') middle = some ((others, [], rest), last) ∧
        params = param :: others := by
  rw [outcomeOfArgument]
  cases hblock : atBlockParameters cs with
  | true => exact ⟨nofun, fun h => nomatch h.1⟩
  | false =>
    rw [if_neg Bool.false_ne_true]
    cases hkey : takeKey? cs with
    | some found =>
      refine ⟨fun h => ?_, fun h => nomatch h.2.1⟩
      obtain ⟨value, -, h⟩ := Option.bind_eq_some_iff.1 h
      obtain ⟨read, -, h⟩ := Option.map_eq_some_iff.1 h
      cases congrArg (fun read => read.1.2.1) h
    | none =>
      dsimp only
      rw [if_neg Bool.false_ne_true]
      constructor
      · intro h
        obtain ⟨⟨⟨param, rest'⟩, middle⟩, hparam, h⟩ := Option.bind_eq_some_iff.1 h
        obtain ⟨⟨⟨others, hash, rest''⟩, last'⟩, hothers, h⟩ := Option.map_eq_some_iff.1 h
        cases h
        exact ⟨rfl, rfl, param, rest', middle, others, hparam, hothers, rfl⟩
      · rintro ⟨-, -, param, rest', middle, others, hparam, hothers, rfl⟩
        rw [hparam, Option.bind_some, hothers]
        rfl

/-- A further path is read as a further argument, and nothing else is. -/
theorem outcome_readArguments_append (h : IsPathText path) {fuel : Nat} {cs : List Char}
    (hfuel : cs.length + 2 < fuel) {first last : Nat} {params : List Expression} :
    outcome (readArguments fuel false (cs ++ ' ' :: path)) first = some ((params, [], []), last) ↔
      ∃ others middle param,
        outcome (readArguments fuel false cs) first = some ((others, [], []), middle) ∧
        ofToken? path middle = some (param, last) ∧ params = others ++ [param] := by
  induction fuel generalizing cs first params with
  | zero => exact absurd hfuel (Nat.not_lt_zero _)
  | succ fuel ih =>
    have htrim := trimStart_append_path h cs
    cases hcs : Text.trimStart cs with
    | nil =>
      rw [hcs, List.isEmpty_nil, if_pos rfl] at htrim
      obtain ⟨fuel, rfl⟩ := Nat.exists_eq_add_of_lt (show 0 < fuel by omega)
      rw [outcome_readArguments_nil hcs, outcome_readArguments_path h htrim,
        outcomeOfArgument_path h, Option.map_eq_some_iff]
      constructor
      · rintro ⟨⟨param, last'⟩, hparam, hread⟩
        cases hread
        exact ⟨[], first, param, rfl, hparam, rfl⟩
      · rintro ⟨others, middle, param, hothers, hparam, rfl⟩
        cases hothers
        exact ⟨(param, last), hparam, rfl⟩
    | cons c ds =>
      rw [hcs, List.isEmpty_cons, if_neg Bool.false_ne_true, List.cons_append] at htrim
      by_cases hc : c = ')'
      · subst hc
        rw [outcome_readArguments_close hcs, outcome_readArguments_close htrim]
        constructor
        · rintro ⟨⟩
        · rintro ⟨others, middle, param, ⟨⟩, -⟩
      · rw [outcome_readArguments_argument hcs hc, outcome_readArguments_argument htrim hc,
          outcomeOfArgument_positional, ← List.cons_append, atBlockParameters_append_path h,
          takeKey?_append_path h, Option.map_eq_none_iff, outcome_readWith_append h]
        have hlength := Text.length_trimStart_le cs
        rw [hcs] at hlength
        constructor
        · rintro ⟨hblock, hkey, param, rest', middle, others, hparam, hothers, rfl⟩
          obtain ⟨⟨⟨first', rest⟩, middle'⟩, hfirst, hread⟩ := Option.map_eq_some_iff.1 hparam
          cases hread
          have hshorter := (readWith_shortens fuel _).of_outcome hfirst
          dsimp only at hshorter hothers
          obtain ⟨before, middle, last', hbefore, hlast, rfl⟩ := (ih (by omega)).1 hothers
          exact ⟨first' :: before, middle, last', outcomeOfArgument_positional.2
            ⟨hblock, hkey, first', rest, middle', before, hfirst, hbefore, rfl⟩, hlast, rfl⟩
        · rintro ⟨all, middle', last', hall, hlast, rfl⟩
          obtain ⟨hblock, hkey, param, rest, middle, others, hparam, hothers, rfl⟩ :=
            outcomeOfArgument_positional.1 hall
          have hshorter := (readWith_shortens fuel _).of_outcome hparam
          dsimp only at hshorter
          refine ⟨hblock, hkey, param, rest ++ ' ' :: path, middle, others ++ [last'],
            ?_, ?_, rfl⟩
          · rw [hparam]
            rfl
          · exact (ih (by omega)).2 ⟨others, middle', last', hothers, hlast, rfl⟩

end Appending

end Expression

end MustacheJsx
