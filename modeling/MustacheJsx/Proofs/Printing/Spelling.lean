import MustacheJsx.Proofs.Printing.Argument
import MustacheJsx.Template.Paths

/-!
# Expressions under a spelling of paths

A path can be written in more than one way. Whichever way is taken, an expression whose paths are
written so is read as it is, and its paths get the next numbers in the order of the source:
`Spelling.readWith_written` and `Spelling.readCall_written`.
-/

namespace MustacheJsx

open Expression

/-! ### Paths of an expression -/

namespace Expression

variable (f : Path → Path)

mutual

def mapPaths : Expression → Expression
  | .path p => .path (f p)
  | .literal value => .literal value
  | .call callee params hash =>
    .call (mapPaths callee) (mapPathsOfParams params) (mapPathsOfHash hash)

def mapPathsOfParams : List Expression → List Expression
  | [] => []
  | param :: params => mapPaths param :: mapPathsOfParams params

def mapPathsOfHash : List (String × Expression) → List (String × Expression)
  | [] => []
  | (key, value) :: hash => (key, mapPaths value) :: mapPathsOfHash hash

end

end Expression

/-! ### Spellings -/

/-- A token that an argument can be, and that is read as a path whatever its number. -/
structure IsPathToken (path : Path) (token : List Char) : Prop where
  begins : ∃ c cs, token = c :: cs ∧ beginsToken c = true
  taken : ∀ rest, Follows rest → takeToken false (token ++ rest) = (token, rest)
  notLiteral : literal? token = none
  read : ∀ id, Path.ofToken? id token = some { path with id, spelling := String.ofList token }
  notKey : ∀ rest, Follows rest → takeKey? (token ++ rest) = none
  notParameters : ∀ rest, Follows rest → atBlockParameters (token ++ rest) = false

/-- A way to write paths, and the paths that can be written in this way. -/
structure Spelling where
  spell : Path → List Char
  admits : Path → Bool
  isPathToken : ∀ path, admits path = true → IsPathToken path (spell path)

namespace Spelling

variable (S : Spelling)

def numberedPath (path : Path) (next : Nat) : Path :=
  { path with id := next, spelling := String.ofList (S.spell path) }

mutual

def written : Expression → List Char
  | .path p => S.spell p
  | .literal value => value.printed
  | .call callee params hash =>
    '(' :: (written callee ++ (writtenParams params ++ (writtenHash hash ++ [')'])))

def writtenParams : List Expression → List Char
  | [] => []
  | param :: params => ' ' :: (written param ++ writtenParams params)

def writtenHash : List (String × Expression) → List Char
  | [] => []
  | (key, value) :: hash => ' ' :: (key.toList ++ '=' :: (written value ++ writtenHash hash))

end

mutual

/-- An expression that can be written: its paths can, its literals are no numbers and its named
arguments have names. -/
def allows : Expression → Bool
  | .path p => S.admits p
  | .literal value => value.isPrintable
  | .call callee params hash => allows callee && allowsParams params && allowsHash hash

def allowsParams : List Expression → Bool
  | [] => true
  | param :: params => allows param && allowsParams params

def allowsHash : List (String × Expression) → Bool
  | [] => true
  | (key, value) :: hash => isPlainKey key && allows value && allowsHash hash

end

mutual

/-- An expression as it is read: its paths are numbered from `next` on, in the order of the
source. -/
def numbered : Expression → Nat → Expression
  | .path p, next => .path (S.numberedPath p next)
  | .literal value, _ => .literal value
  | .call callee params hash, next =>
    .call (numbered callee next) (numberedParams params (next + callee.paths.length))
      (numberedHash hash (next + callee.paths.length + (pathsOfParams params).length))

def numberedParams : List Expression → Nat → List Expression
  | [], _ => []
  | param :: params, next =>
    numbered param next :: numberedParams params (next + param.paths.length)

def numberedHash : List (String × Expression) → Nat → List (String × Expression)
  | [], _ => []
  | (key, value) :: hash, next =>
    (key, numbered value next) :: numberedHash hash (next + value.paths.length)

end

/-! ### Numbers -/

mutual

theorem map_id_paths_numbered (e : Expression) (next : Nat) :
    (S.numbered e next).paths.map Path.id = List.range' next e.paths.length := by
  match e with
  | .path p => rfl
  | .literal value => rfl
  | .call callee params hash =>
    have hcallee := map_id_paths_numbered callee next
    have hparams := map_id_paths_numberedParams params (next + callee.paths.length)
    have hhash := map_id_paths_numberedHash hash
      (next + callee.paths.length + (pathsOfParams params).length)
    rw [numbered, paths, paths, List.map_append, List.map_append, hcallee, hparams, hhash,
      List.length_append, List.length_append, List.range'_append_1, Nat.add_assoc next,
      List.range'_append_1]

theorem map_id_paths_numberedParams (params : List Expression) (next : Nat) :
    (pathsOfParams (S.numberedParams params next)).map Path.id =
      List.range' next (pathsOfParams params).length := by
  match params with
  | [] => rfl
  | param :: params =>
    have hparam := map_id_paths_numbered param next
    have hparams := map_id_paths_numberedParams params (next + param.paths.length)
    rw [numberedParams, pathsOfParams, pathsOfParams, List.map_append, hparam, hparams,
      List.length_append, List.range'_append_1]

theorem map_id_paths_numberedHash (hash : Hash) (next : Nat) :
    (pathsOfHash (S.numberedHash hash next)).map Path.id =
      List.range' next (pathsOfHash hash).length := by
  match hash with
  | [] => rfl
  | (key, value) :: hash =>
    have hvalue := map_id_paths_numbered value next
    have hhash := map_id_paths_numberedHash hash (next + value.paths.length)
    rw [numberedHash, pathsOfHash, pathsOfHash, List.map_append, hvalue, hhash,
      List.length_append, List.range'_append_1]

end

section Forgetting

variable {f : Path → Path}

mutual

theorem mapPaths_numbered (hf : ∀ p next, S.admits p = true → f (S.numberedPath p next) = f p)
    (e : Expression) (h : S.allows e = true) (next : Nat) :
    (S.numbered e next).mapPaths f = e.mapPaths f := by
  match e with
  | .path p =>
    rw [numbered, mapPaths, mapPaths, hf p next h]
  | .literal value => rfl
  | .call callee params hash =>
    simp only [allows, Bool.and_eq_true] at h
    rw [numbered, mapPaths, mapPaths, mapPaths_numbered hf callee h.1.1,
      mapPathsOfParams_numbered hf params h.1.2, mapPathsOfHash_numbered hf hash h.2]

theorem mapPathsOfParams_numbered
    (hf : ∀ p next, S.admits p = true → f (S.numberedPath p next) = f p)
    (params : List Expression) (h : S.allowsParams params = true) (next : Nat) :
    mapPathsOfParams f (S.numberedParams params next) = mapPathsOfParams f params := by
  match params with
  | [] => rfl
  | param :: params =>
    simp only [allowsParams, Bool.and_eq_true] at h
    rw [numberedParams, mapPathsOfParams, mapPathsOfParams, mapPaths_numbered hf param h.1,
      mapPathsOfParams_numbered hf params h.2]

theorem mapPathsOfHash_numbered
    (hf : ∀ p next, S.admits p = true → f (S.numberedPath p next) = f p)
    (hash : Hash) (h : S.allowsHash hash = true) (next : Nat) :
    mapPathsOfHash f (S.numberedHash hash next) = mapPathsOfHash f hash := by
  match hash with
  | [] => rfl
  | (key, value) :: hash =>
    simp only [allowsHash, Bool.and_eq_true] at h
    rw [numberedHash, mapPathsOfHash, mapPathsOfHash, mapPaths_numbered hf value h.1.2,
      mapPathsOfHash_numbered hf hash h.2]

end

end Forgetting

/-! ### Before an argument -/

variable {S}

theorem exists_written_eq_cons {e : Expression} (h : S.allows e = true) :
    ∃ c cs, S.written e = c :: cs ∧ beginsArgument c = true := by
  cases e with
  | path p =>
    obtain ⟨c, cs, hspell, hc⟩ := (S.isPathToken p h).begins
    exact ⟨c, cs, hspell, beginsArgument_of_beginsToken hc⟩
  | literal value =>
    rcases printed_literal_cases h with ⟨chars, rfl⟩ | ⟨hword, -, -⟩
    · exact ⟨_, _, rfl, by decide⟩
    · cases hprinted : value.printed with
      | nil => exact absurd hprinted hword.ne_nil
      | cons c cs =>
        have hc := hword.isTokenChar c (by simp [hprinted])
        exact ⟨c, cs, hprinted, beginsArgument_of_beginsToken (beginsToken_of_isTokenChar hc)⟩
  | call callee params hash => exact ⟨_, _, rfl, by decide⟩

theorem positional_written {e : Expression} (h : S.allows e = true) {rest : List Char}
    (hrest : Follows rest) : takeKey? (S.written e ++ rest) = none ∧
      atBlockParameters (S.written e ++ rest) = false := by
  cases e with
  | path p =>
    have htoken := S.isPathToken p h
    exact ⟨htoken.notKey rest hrest, htoken.notParameters rest hrest⟩
  | literal value =>
    rcases printed_literal_cases h with ⟨chars, rfl⟩ | ⟨hword, -, -⟩
    · exact ⟨takeKey?_of_not_key _ (by decide) (by decide) (by decide), rfl⟩
    · exact ⟨takeKey?_token hword.isTokenChar hrest, atBlockParameters_of_follows hword.ne_nil
        (fun c hc => isBlank_eq_false (toNat_of_isTokenChar (hword.isTokenChar c hc))) hrest⟩
  | call callee params hash =>
    exact ⟨takeKey?_of_not_key _ (by decide) (by decide) (by decide), rfl⟩

theorem trimStart_written {e : Expression} (h : S.allows e = true) (rest : List Char) :
    Text.trimStart (S.written e ++ rest) = S.written e ++ rest := by
  obtain ⟨c, cs, hwritten, hc⟩ := exists_written_eq_cons h
  rw [hwritten, List.cons_append]
  exact Text.trimStart_cons_of_not_blank _ (isBlank_of_beginsArgument hc)

theorem follows_writtenHash {hash : Hash} (h : S.allowsHash hash = true) {rest : List Char}
    (hrest : Closes rest) : Follows (S.writtenHash hash ++ rest) := by
  cases hash with
  | nil => exact follows_of_closes hrest
  | cons pair hash =>
    obtain ⟨key, value⟩ := pair
    simp only [allowsHash, Bool.and_eq_true] at h
    obtain ⟨hne, hkey⟩ := key_chars h.1.1
    rw [writtenHash]
    cases hchars : key.toList with
    | nil => exact absurd hchars hne
    | cons c cs =>
      have hc := hkey c (by simp [hchars])
      refine .argument c _ (isBlank_of_isKeyChar hc) ?_ ?_
      · rintro rfl
        cases hc
      · rintro rfl
        cases hc

theorem follows_writtenParams {params : List Expression} (h : S.allowsParams params = true)
    {rest : List Char} (hrest : Follows rest) : Follows (S.writtenParams params ++ rest) := by
  cases params with
  | nil => exact hrest
  | cons param params =>
    simp only [allowsParams, Bool.and_eq_true] at h
    obtain ⟨c, cs, hwritten, hc⟩ := exists_written_eq_cons h.1
    rw [writtenParams, hwritten]
    exact .argument c _ (isBlank_of_beginsArgument hc) (ne_of_beginsArgument hc (by decide))
      (ne_of_beginsArgument hc (by decide))

/-! ### The last character -/

variable (S) in
/-- The characters that arguments end in are among those that `p` holds of. -/
structure Ends (p : Char → Bool) : Prop where
  path : ∀ path, S.admits path = true → EndsIn p (S.spell path)
  token : ∀ c, isTokenChar c = true → p c = true
  quote : p '"' = true
  close : p ')' = true

section Ends

variable {p : Char → Bool} {cs : List Char} (hends : S.Ends p)

include hends

theorem endsIn_written {e : Expression} (h : S.allows e = true) : EndsIn p (S.written e) := by
  cases e with
  | path path => exact hends.path path h
  | literal value =>
    rcases printed_literal_cases h with ⟨chars, rfl⟩ | ⟨hword, -, -⟩
    · exact ⟨'"' :: escaped chars.toList, '"', rfl, hends.quote⟩
    · exact endsIn_of_forall hword.ne_nil fun c hc => hends.token c (hword.isTokenChar c hc)
  | call callee params hash =>
    exact ⟨'(' :: (S.written callee ++ (S.writtenParams params ++ S.writtenHash hash)), ')',
      by simp [written], hends.close⟩

theorem endsIn_append_writtenHash (hcs : EndsIn p cs) {hash : Hash}
    (h : S.allowsHash hash = true) : EndsIn p (cs ++ S.writtenHash hash) := by
  induction hash generalizing cs with
  | nil =>
    rw [writtenHash, List.append_nil]
    exact hcs
  | cons pair hash ih =>
    obtain ⟨key, value⟩ := pair
    simp only [allowsHash, Bool.and_eq_true] at h
    have hvalue := (endsIn_written hends h.1.2).append (cs ++ ' ' :: (key.toList ++ ['=']))
    have hrest := ih hvalue h.2
    rw [writtenHash]
    simpa only [List.append_assoc, List.cons_append, List.nil_append] using hrest

theorem endsIn_append_writtenParams (hcs : EndsIn p cs) {params : List Expression}
    (h : S.allowsParams params = true) : EndsIn p (cs ++ S.writtenParams params) := by
  induction params generalizing cs with
  | nil =>
    rw [writtenParams, List.append_nil]
    exact hcs
  | cons param params ih =>
    simp only [allowsParams, Bool.and_eq_true] at h
    have hparam := (endsIn_written hends h.1).append (cs ++ [' '])
    have hrest := ih hparam h.2
    rw [writtenParams]
    simpa only [List.append_assoc, List.cons_append, List.nil_append] using hrest

theorem endsIn_append_arguments (hcs : EndsIn p cs) {params : List Expression} {hash : Hash}
    (hparams : S.allowsParams params = true) (hhash : S.allowsHash hash = true) :
    EndsIn p (cs ++ (S.writtenParams params ++ S.writtenHash hash)) := by
  rw [← List.append_assoc]
  exact endsIn_append_writtenHash hends (endsIn_append_writtenParams hends hcs hparams) hhash

end Ends

/-! ### One argument -/

theorem readBare_spell {path : Path} (h : S.admits path = true) {rest : List Char}
    (hrest : Follows rest) (next : Nat) :
    (readBare (S.spell path ++ rest)).run next =
      (.ok (.path (S.numberedPath path next), rest), next + 1) := by
  have htoken := S.isPathToken path h
  obtain ⟨c, cs, hspell, -⟩ := htoken.begins
  have hempty : (S.spell path).isEmpty = false := by
    simp [hspell]
  have hid : nextId.run next = (.ok next, next + 1) := rfl
  rw [readBare, htoken.taken rest hrest]
  dsimp only
  rw [hempty, htoken.notLiteral]
  simp only [Bool.false_eq_true, if_false]
  rw [run_bind_of_run_eq_ok hid, htoken.read]
  rfl

theorem readArguments_positional (fuel : Nat) {e : Expression} (h : S.allows e = true)
    {rest : List Char} (hrest : Follows rest) :
    readArguments (fuel + 1) false (' ' :: (S.written e ++ rest)) = (do
      let (param, rest) ← readWith fuel (S.written e ++ rest)
      let (params, hash, rest) ← readArguments fuel false rest
      pure (param :: params, hash, rest)) := by
  obtain ⟨hkey, hblock⟩ := positional_written h hrest
  obtain ⟨c, cs, hwritten, hc⟩ := exists_written_eq_cons h
  have htrim : Text.trimStart (' ' :: (S.written e ++ rest)) = S.written e ++ rest := by
    rw [hwritten, List.cons_append]
    exact Text.trimStart_space_cons _ (isBlank_of_beginsArgument hc)
  rw [readArguments.eq_def]
  dsimp only
  rw [htrim]
  split
  · next heq =>
    rw [hwritten] at heq
    cases heq
  · next heq =>
    rw [hwritten, List.cons_append, List.cons.injEq] at heq
    exact absurd heq.1 (ne_of_beginsArgument hc (by decide))
  · rw [hblock, hkey]
    rfl

theorem readArguments_named (fuel : Nat) (named : Bool) {key : String}
    (hkey : isPlainKey key = true) {value : Expression} (hvalue : S.allows value = true)
    (rest : List Char) :
    readArguments (fuel + 1) named (' ' :: (key.toList ++ '=' :: (S.written value ++ rest))) =
    (do
      let (value, rest) ← readWith fuel (S.written value ++ rest)
      let (params, hash, rest) ← readArguments fuel true rest
      pure (params, (key, value) :: hash, rest)) := by
  obtain ⟨hne, hchars⟩ := key_chars hkey
  have htake := takeKey?_key hne hchars (S.written value ++ rest)
  have hblock := atBlockParameters_key hne hchars (S.written value ++ rest)
  have hname : String.ofList key.toList = key := String.ofList_toList
  rw [trimStart_written hvalue, hname] at htake
  cases hlist : key.toList with
  | nil => exact absurd hlist hne
  | cons d ds =>
    have hd := hchars d (by simp [hlist])
    rw [hlist, List.cons_append] at htake hblock
    have htrim := Text.trimStart_space_cons (ds ++ '=' :: (S.written value ++ rest))
      (isBlank_of_isKeyChar hd)
    rw [readArguments.eq_def, List.cons_append]
    dsimp only
    rw [htrim]
    split
    · next heq => cases heq
    · next heq =>
      cases heq
      cases hd
    · rw [hblock, htake]
      rfl

/-! ### Reading what is written -/

mutual

/-- An expression is read as it is written, with as much fuel as it has characters. -/
theorem readWith_written (e : Expression) (h : S.allows e = true) (fuel : Nat)
    (hfuel : (S.written e).length ≤ fuel) (rest : List Char) (hrest : Follows rest) (next : Nat) :
    (readWith fuel (S.written e ++ rest)).run next =
      (.ok (S.numbered e next, rest), next + e.paths.length) := by
  obtain ⟨c, cs, hwritten, hc⟩ := exists_written_eq_cons h
  cases fuel with
  | zero =>
    rw [hwritten] at hfuel
    cases hfuel
  | succ fuel =>
    match e with
    | .path p =>
      obtain ⟨d, ds, hspell, hd⟩ := (S.isPathToken p h).begins
      have hread := readBare_spell h hrest next
      rw [hspell, List.cons_append] at hread
      rw [written, hspell, List.cons_append, readWith_token hd, hread]
      rfl
    | .literal value => exact readWith_literal h fuel hrest next
    | .call callee params hash =>
      simp only [allows, Bool.and_eq_true] at h
      obtain ⟨⟨hcallee, hparams⟩, hhash⟩ := h
      simp only [written, List.length_cons, List.length_append, List.length_nil] at hfuel
      have hcloses : Closes (')' :: rest) := Or.inr ⟨rest, rfl⟩
      have hafter := follows_writtenHash hhash hcloses
      have hread := readWith_written callee hcallee fuel (by omega)
        (S.writtenParams params ++ (S.writtenHash hash ++ ')' :: rest))
        (follows_writtenParams hparams hafter) next
      have hreads := readArguments_writtenParams params hparams hash (')' :: rest) hafter
        (fun fuel next hle =>
          readArguments_writtenHash hash hhash fuel hle false (')' :: rest) hcloses next)
        fuel (by omega) (next + callee.paths.length)
      simp only [written, List.cons_append, List.append_assoc, List.nil_append]
      rw [readWith, trimStart_written hcallee, run_bind_of_run_eq_ok hread,
        run_bind_of_run_eq_ok hreads]
      dsimp only
      rw [Text.trimStart_cons_of_not_blank rest (by decide), paths, List.length_append,
        List.length_append, ← Nat.add_assoc, ← Nat.add_assoc]
      rfl

theorem readArguments_writtenParams (params : List Expression)
    (hparams : S.allowsParams params = true) (hash : Hash) (rest : List Char)
    (hfollows : Follows (S.writtenHash hash ++ rest))
    (hhash : ∀ fuel next, (S.writtenHash hash).length + 1 ≤ fuel →
      (readArguments fuel false (S.writtenHash hash ++ rest)).run next =
        (.ok ([], S.numberedHash hash next, rest), next + (pathsOfHash hash).length))
    (fuel : Nat) (hfuel : (S.writtenParams params).length + (S.writtenHash hash).length + 1 ≤ fuel)
    (next : Nat) :
    (readArguments fuel false (S.writtenParams params ++ (S.writtenHash hash ++ rest))).run next =
      (.ok (S.numberedParams params next,
        S.numberedHash hash (next + (pathsOfParams params).length), rest),
        next + (pathsOfParams params).length + (pathsOfHash hash).length) := by
  match params with
  | [] =>
    rw [writtenParams, List.length_nil, Nat.zero_add] at hfuel
    exact hhash fuel next hfuel
  | param :: params =>
    cases fuel with
    | zero => omega
    | succ fuel =>
      simp only [allowsParams, Bool.and_eq_true] at hparams
      simp only [writtenParams, List.length_cons, List.length_append] at hfuel
      have hafter := follows_writtenParams hparams.2 hfollows
      have hread := readWith_written param hparams.1 fuel (by omega) _ hafter next
      have hreads := readArguments_writtenParams params hparams.2 hash rest hfollows hhash fuel
        (by omega) (next + param.paths.length)
      rw [writtenParams, List.cons_append, List.append_assoc,
        readArguments_positional fuel hparams.1 hafter, run_bind_of_run_eq_ok hread,
        run_bind_of_run_eq_ok hreads, pathsOfParams, List.length_append, ← Nat.add_assoc]
      rfl

theorem readArguments_writtenHash (hash : Hash) (hhash : S.allowsHash hash = true) (fuel : Nat)
    (hfuel : (S.writtenHash hash).length + 1 ≤ fuel) (named : Bool) (rest : List Char)
    (hrest : Closes rest) (next : Nat) :
    (readArguments fuel named (S.writtenHash hash ++ rest)).run next =
      (.ok ([], S.numberedHash hash next, rest), next + (pathsOfHash hash).length) := by
  cases fuel with
  | zero => omega
  | succ fuel =>
    match hash with
    | [] => exact readArguments_closes fuel named hrest next
    | (key, value) :: hash =>
      simp only [allowsHash, Bool.and_eq_true] at hhash
      obtain ⟨⟨hkey, hvalue⟩, hhash⟩ := hhash
      simp only [writtenHash, List.length_cons, List.length_append] at hfuel
      have hread := readWith_written value hvalue fuel (by omega) _
        (follows_writtenHash hhash hrest) next
      have hreads := readArguments_writtenHash hash hhash fuel (by omega) true rest hrest
        (next + value.paths.length)
      simp only [writtenHash, List.cons_append, List.append_assoc]
      rw [readArguments_named fuel named hkey hvalue, run_bind_of_run_eq_ok hread,
        run_bind_of_run_eq_ok hreads, pathsOfHash, List.length_append, ← Nat.add_assoc]
      rfl

end

variable (S) in
def writtenCall (callee : Expression) (params : List Expression) (hash : Hash) : List Char :=
  S.written callee ++ (S.writtenParams params ++ S.writtenHash hash)

/-- Arguments that reach the end of the tag. -/
theorem readArguments_written {params : List Expression} (hparams : S.allowsParams params = true)
    {hash : Hash} (hhash : S.allowsHash hash = true) (fuel : Nat)
    (hfuel : (S.writtenParams params).length + (S.writtenHash hash).length + 1 ≤ fuel)
    (next : Nat) :
    (readArguments fuel false (S.writtenParams params ++ S.writtenHash hash)).run next =
      (.ok (S.numberedParams params next,
        S.numberedHash hash (next + (pathsOfParams params).length), []),
        next + (pathsOfParams params).length + (pathsOfHash hash).length) := by
  have hend : Closes [] := Or.inl rfl
  have hread := readArguments_writtenParams params hparams hash []
    (follows_writtenHash hhash hend)
    (fun fuel next hle => readArguments_writtenHash hash hhash fuel hle false [] hend next)
    fuel hfuel next
  rw [List.append_nil] at hread
  exact hread

theorem readCall_written {callee : Expression} {params : List Expression} {hash : Hash}
    (hcallee : S.allows callee = true) (hparams : S.allowsParams params = true)
    (hhash : S.allowsHash hash = true) (next : Nat) :
    (readCall (S.writtenCall callee params hash)).run next =
      (.ok (S.numbered callee next, S.numberedParams params (next + callee.paths.length),
        S.numberedHash hash (next + callee.paths.length + (pathsOfParams params).length)),
        next + callee.paths.length + (pathsOfParams params).length +
          (pathsOfHash hash).length) := by
  have hend : Closes [] := Or.inl rfl
  have hfollows := follows_writtenParams hparams (follows_writtenHash hhash hend)
  have hlength : fuelFor (S.writtenCall callee params hash) = (S.written callee).length +
      ((S.writtenParams params).length + (S.writtenHash hash).length) + 2 := by
    simp [fuelFor, writtenCall]
  rw [List.append_nil] at hfollows
  have hread := readWith_written callee hcallee (fuelFor (S.writtenCall callee params hash))
    (by omega) _ hfollows next
  have hreads := readArguments_written hparams hhash
    (fuelFor (S.writtenCall callee params hash)) (by omega) (next + callee.paths.length)
  have htrim : Text.trimStart (S.writtenCall callee params hash) =
      S.written callee ++ (S.writtenParams params ++ S.writtenHash hash) :=
    trimStart_written hcallee _
  rw [readCall, htrim, run_bind_of_run_eq_ok hread, run_bind_of_run_eq_ok hreads]
  rfl

end Spelling

end MustacheJsx
