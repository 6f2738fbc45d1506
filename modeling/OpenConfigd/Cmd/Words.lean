import Mathlib.Data.List.Forall2
import OpenConfigd.Cmd.Reads

/-!
# Commands as they are written

A keyword that is written in full is always the best one (`Stands.fits`). A command that is written
with a text for each of its parameters runs the function that was installed for it, as long as no
parameter is next where another word is (`parseCmd_written`); in the tables of this repository
none is.
-/

namespace OpenConfigd.Cmd

/-! ## Keywords -/

/-- The text of a word: not empty, and without white space. -/
def Solid (str : List Char) : Prop := str ≠ [] ∧ ∀ c ∈ str, isWhiteSpaceChar c = false

instance (str : List Char) : Decidable (Solid str) :=
  decidable_of_iff (str.isEmpty = false ∧ str.any isWhiteSpaceChar = false) (by simp [Solid])

theorem isDelimiter_cons (c : Char) (str : List Char) (i : Nat) : isDelimiter (c :: str) (i + 1) = isDelimiter str i := rfl

theorem matchKeyword_cons (c : Char) (str name : List Char) :
    matchKeyword (c :: str) (c :: name) = ((matchKeyword str name).1 + 1, (matchKeyword str name).2) := by
  have hcommon : longestCommon (c :: str) (c :: name) = longestCommon str name + 1 := if_pos rfl
  rw [matchKeyword, matchKeyword, hcommon, isDelimiter_cons, isDelimiter_cons]
  cases isDelimiter str (longestCommon str name) with
  | false => rfl
  | true =>
    cases isDelimiter name (longestCommon str name) with
    | false => rfl
    | true => rfl

/-- A keyword matches exactly just the lines that begin with it. -/
theorem matchKeyword_eq_exact_iff (str : List Char) {name : List Char}
    (hname : ∀ c ∈ name, isWhiteSpaceChar c = false) : (matchKeyword str name).2 = .exact ↔ firstWord str = name := by
  induction str generalizing name with
  | nil =>
    cases name with
    | nil => exact iff_of_true rfl rfl
    | cons b name =>
      have hb := hname b List.mem_cons_self
      exact iff_of_false (by simp [matchKeyword, longestCommon, isDelimiter, hb]) (List.cons_ne_nil b name).symm
  | cons a str ih =>
    cases name with
    | nil =>
      cases ha : isWhiteSpaceChar a with
      | true => exact iff_of_true (by simp [matchKeyword, longestCommon, isDelimiter, ha]) (by simp [firstWord, ha])
      | false => exact iff_of_false (by simp [matchKeyword, longestCommon, isDelimiter, ha]) (by simp [firstWord, ha])
    | cons b name =>
      have hb := hname b List.mem_cons_self
      by_cases hab : a = b
      · subst hab
        have hfirst : firstWord (a :: str) = a :: firstWord str := List.takeWhile_cons_of_pos (by simp [hb])
        rw [matchKeyword_cons, hfirst, List.cons.injEq, and_iff_right rfl]
        exact ih fun c hc => hname c (List.mem_cons_of_mem _ hc)
      · refine iff_of_false (by simp [matchKeyword, longestCommon, isDelimiter, hab, hb]; split <;> simp) fun h => hab ?_
        rw [firstWord, List.takeWhile_cons] at h
        split at h
        · exact (List.cons.inj h).1
        · cases h

theorem firstWord_append {str rest : List Char} (hstr : ∀ c ∈ str, isWhiteSpaceChar c = false)
    (hrest : rest = [] ∨ ∃ line, rest = ' ' :: line) : firstWord (str ++ rest) = str := by
  rw [firstWord, List.takeWhile_append_of_pos (by simpa using hstr)]
  rcases hrest with rfl | ⟨line, rfl⟩
  · exact List.append_nil _
  · exact List.append_nil _

theorem longestCommon_append (str rest : List Char) : longestCommon (str ++ rest) str = str.length := by
  induction str with
  | nil => cases rest <;> rfl
  | cons c str ih => rw [List.cons_append, longestCommon, if_pos rfl, ih, List.length_cons]

theorem matchKeyword_pos (line name : List Char) : (matchKeyword line name).1 = longestCommon line name := by
  rw [matchKeyword]
  split
  · rfl
  · split
    · rfl
    · rfl

theorem MatchType.rank_lt_exact {m : MatchType} (h : m ≠ .exact) : m.rank < MatchType.exact.rank := by
  cases m with
  | exact => exact absurd rfl h
  | _ => decide

/-! ## Parameters -/

theorem takeWhile_space {f : Char → Bool} (hf : f ' ' = false) (str line : List Char) :
    (str ++ ' ' :: line).takeWhile f = str.takeWhile f := by
  induction str with
  | nil => exact List.takeWhile_cons_of_neg (by simp [hf])
  | cons c str ih => rw [List.cons_append, List.takeWhile_cons, List.takeWhile_cons, ih]

theorem ipv4Loop_space (str line : List Char) (pos dots nums : Nat) (digits : List Char) :
    ipv4Loop pos dots nums digits (str ++ ' ' :: line) = ipv4Loop pos dots nums digits str := by
  induction str generalizing pos dots nums digits with
  | nil => rfl
  | cons c str ih => simp only [List.cons_append, ipv4Loop, ih]

theorem ipv4PrefixLoop_space (str line : List Char) (pos : Nat) (digits : List Char) :
    ipv4PrefixLoop pos digits (str ++ ' ' :: line) = ipv4PrefixLoop pos digits str := by
  induction str generalizing pos digits with
  | nil => rfl
  | cons c str ih => simp only [List.cons_append, ipv4PrefixLoop, ih]

theorem ipv6PrefixLoop_space (str line : List Char) (pos : Nat) (digits : List Char) :
    ipv6PrefixLoop pos digits (str ++ ' ' :: line) = ipv6PrefixLoop pos digits str := by
  induction str generalizing pos digits with
  | nil => rfl
  | cons c str ih => simp only [List.cons_append, ipv6PrefixLoop, ih]

theorem matchIPv6_space (net : Net) {str : List Char} (hstr : str ≠ []) (line : List Char) :
    matchIPv6 net (str ++ ' ' :: line) = matchIPv6 net str := by
  rw [matchIPv6, matchIPv6, if_neg (List.append_ne_nil_of_left_ne_nil hstr _), if_neg hstr,
    takeWhile_space (by decide)]

theorem without_slash (m : Nat × MatchType) : (if m.2 = .none then m else (m.1, .incomplete)).2 = .none ∨
    (if m.2 = .none then m else (m.1, .incomplete)).2 = .incomplete := by
  split
  · exact .inl ‹_›
  · exact .inr rfl

/-- A prefix has a slash, and so has no need to look for one behind it. -/
theorem idxOf_slash {str : List Char} (h : '/' ∈ str) (line : List Char) :
    (str ++ line).idxOf '/' = str.idxOf '/' ∧ str.idxOf '/' < str.length ∧
      (str ++ line).take (str.idxOf '/') = str.take (str.idxOf '/') ∧
      (str ++ line).drop (str.idxOf '/' + 1) = str.drop (str.idxOf '/' + 1) ++ line := by
  have hlt : str.idxOf '/' < str.length := List.idxOf_lt_length_iff.mpr h
  exact ⟨List.idxOf_append_of_mem h, hlt, List.take_append_of_le_length hlt.le, List.drop_append_of_le_length hlt⟩

theorem matchIPv4Prefix_space {str : List Char} (hnone : (matchIPv4Prefix str).2 ≠ .none)
    (hincomplete : (matchIPv4Prefix str).2 ≠ .incomplete) (line : List Char) :
    matchIPv4Prefix (str ++ ' ' :: line) = matchIPv4Prefix str := by
  have hslash : '/' ∈ str := by
    by_contra h
    rw [matchIPv4Prefix, List.idxOf_eq_length_iff.mpr h] at hnone hincomplete
    dsimp only at hnone hincomplete
    rw [if_pos rfl] at hnone hincomplete
    exact (without_slash (matchIPv4 str)).elim hnone hincomplete
  obtain ⟨hidx, hlt, htake, hdrop⟩ := idxOf_slash hslash (' ' :: line)
  rw [matchIPv4Prefix, matchIPv4Prefix, hidx]
  dsimp only
  rw [if_neg (by rw [List.length_append]; omega), if_neg hlt.ne, htake, hdrop, ipv4PrefixLoop_space]

theorem matchIPv6Prefix_space (net : Net) {str : List Char} (hnone : (matchIPv6Prefix net str).2 ≠ .none)
    (hincomplete : (matchIPv6Prefix net str).2 ≠ .incomplete) (line : List Char) :
    matchIPv6Prefix net (str ++ ' ' :: line) = matchIPv6Prefix net str := by
  have hslash : '/' ∈ str := by
    by_contra h
    rw [matchIPv6Prefix, List.idxOf_eq_length_iff.mpr h] at hnone hincomplete
    dsimp only at hnone hincomplete
    rw [if_pos rfl] at hnone hincomplete
    exact (without_slash (matchIPv6 net str)).elim hnone hincomplete
  obtain ⟨hidx, hlt, htake, hdrop⟩ := idxOf_slash hslash (' ' :: line)
  rw [matchIPv6Prefix, matchIPv6Prefix, hidx]
  dsimp only
  rw [if_neg (by rw [List.length_append]; omega), if_neg hlt.ne, htake, hdrop, ipv6PrefixLoop_space]

theorem scan_name (w : String) : (scan w).name = w := by
  rw [scan]
  split
  · rfl
  · rfl

/-- What may be written for a word: a keyword itself, and for a parameter a text that fits it up to
its end. `LINE` takes all that is left of a line, and no text stands for it. -/
inductive Stands (net : Net) : Key → List Char → Prop where
  | keyword {name : String} : Solid name.toList → Stands net ⟨.keyword, name⟩ name.toList
  | param {k : Key} {str : List Char} : k.type ≠ .keyword → k.type ≠ .line → Solid str →
      (k.match_ net str).1 = str.length → (k.match_ net str).2 ≠ .none →
      (k.match_ net str).2 ≠ .incomplete → Stands net k str

variable {F : Type} {net : Net} {cmds : List (List String × F)} {p : List Key} {k : Key} {str rest : List Char}

/-- A word of a command that is a keyword stands for itself. -/
theorem stands_scan {word : String} (htype : (scan word).type = .keyword) (h : Solid word.toList) :
    Stands net (scan word) word.toList := by
  have hscan : scan word = ⟨(scan word).type, (scan word).name⟩ := rfl
  rw [htype, scan_name] at hscan
  rw [hscan]
  exact .keyword h

theorem Stands.solid (h : Stands net k str) : Solid str := by
  cases h with
  | keyword h => exact h
  | param _ _ h => exact h

/-- The match of a text that stands for a word ends with it. -/
theorem Stands.match_ (h : Stands net k str) (hrest : rest = [] ∨ ∃ line, rest = ' ' :: line) :
    (k.match_ net (str ++ rest)).1 = str.length ∧ (k.match_ net (str ++ rest)).2 ≠ .none ∧
      (k.match_ net (str ++ rest)).2 ≠ .incomplete := by
  cases h with
  | @keyword name hname =>
    have hexact : (matchKeyword (name.toList ++ rest) name.toList).2 = .exact :=
      (matchKeyword_eq_exact_iff _ hname.2).mpr (firstWord_append hname.2 hrest)
    have hmatch : Key.match_ net ⟨.keyword, name⟩ (name.toList ++ rest) = matchKeyword (name.toList ++ rest) name.toList := rfl
    rw [hmatch, matchKeyword_pos, longestCommon_append, hexact]
    exact ⟨rfl, by decide, by decide⟩
  | param hkeyword hline hsolid hpos hnone hincomplete =>
    suffices heq : k.match_ net (str ++ rest) = k.match_ net str by
      rw [heq]
      exact ⟨hpos, hnone, hincomplete⟩
    rcases hrest with rfl | ⟨line, rfl⟩
    · rw [List.append_nil]
    · obtain ⟨type, name⟩ := k
      cases type with
      | keyword => exact absurd rfl hkeyword
      | line => exact absurd rfl hline
      | ipv4 => exact ipv4Loop_space str line 0 0 0 []
      | ipv4Prefix => exact matchIPv4Prefix_space hnone hincomplete line
      | ipv6 => exact matchIPv6_space net hsolid.1 line
      | ipv6Prefix => exact matchIPv6Prefix_space net hnone hincomplete line
      | word =>
        have hfirst : firstWord (str ++ ' ' :: line) = firstWord str := takeWhile_space (by decide) str line
        simp only [Key.match_, matchWord, hfirst]
      | range =>
        simp only [Key.match_, matchRange, takeWhile_space (show Char.isDigit ' ' = false by decide)]

/-! ## Tables -/

/-- Where two commands part their next words are keywords. -/
def apart : List Key → List Key → Bool
  | a :: as, b :: bs => if a = b then apart as bs else a.type == .keyword && b.type == .keyword
  | _, _ => true

/-- The commands are of words without white space, and a parameter is next nowhere where another
word is. -/
structure Table (cmds : List (List String × F)) : Prop where
  solid : ∀ x ∈ cmds, ∀ w ∈ x.1, Solid w.toList
  apart : ∀ x ∈ cmds, ∀ y ∈ cmds, apart (x.1.map scan) (y.1.map scan)

theorem keywords_of_apart {k k' : Key} (hne : k' ≠ k) (p as bs : List Key)
    (h : apart (p ++ k :: as) (p ++ k' :: bs)) : k.type = .keyword ∧ k'.type = .keyword := by
  induction p with
  | nil =>
    rw [List.nil_append, List.nil_append, apart, if_neg (Ne.symm hne)] at h
    simpa using h
  | cons a p ih =>
    rw [List.cons_append, List.cons_append, apart, if_pos rfl] at h
    exact ih h

theorem Table.keywords (h : Table cmds) {k k' : Key} (hk : Next cmds p k) (hk' : Next cmds p k') (hne : k' ≠ k) :
    k.type = .keyword ∧ k'.type = .keyword := by
  obtain ⟨x, hx, as, has⟩ := hk
  obtain ⟨y, hy, bs, hbs⟩ := hk'
  refine keywords_of_apart hne p as bs ?_
  rw [List.append_cons, has, List.append_cons, hbs]
  exact h.apart x hx y hy

theorem Table.solid_next (h : Table cmds) (hk : Next cmds p k) : Solid k.name.toList := by
  obtain ⟨x, hx, as, has⟩ := hk
  have hmem : k ∈ x.1.map scan := has ▸ by simp
  obtain ⟨w, hw, rfl⟩ := List.mem_map.mp hmem
  rw [scan_name]
  exact h.solid x hx w hw

/-- What is written for a word that is next makes it the best one. -/
theorem Stands.fits (htable : Table cmds) (h : Stands net k str) (hnext : Next cmds p k)
    (hrest : rest = [] ∨ ∃ line, rest = ' ' :: line) : Fits net cmds p (str ++ rest) k := by
  refine ⟨hnext, (h.match_ hrest).2.1, fun k' hnext' hne => ?_⟩
  obtain ⟨hk, hk'⟩ := htable.keywords hnext hnext' hne
  cases h with
  | param hkeyword => exact absurd hk hkeyword
  | @keyword name hname =>
    obtain ⟨type, name'⟩ := k'
    cases hk'
    have hfirst : firstWord (name.toList ++ rest) = name.toList := firstWord_append hname.2 hrest
    have hexact : (Key.match_ net ⟨.keyword, name⟩ (name.toList ++ rest)).2 = .exact :=
      (matchKeyword_eq_exact_iff _ hname.2).mpr hfirst
    rw [hexact]
    refine MatchType.rank_lt_exact fun hexact' => hne ?_
    have hfirst' := (matchKeyword_eq_exact_iff _ (htable.solid_next hnext').2).mp hexact'
    rw [String.toList_inj.mp (hfirst.symm.trans hfirst')]

theorem Stands.read_eq (h : Stands net k str) (hrest : rest = [] ∨ ∃ line, rest = ' ' :: line) :
    k.read net (str ++ rest) = str := by
  rw [Key.read, (h.match_ hrest).1, List.take_left]

theorem Stands.rest_eq (h : Stands net k str) (hrest : rest = [] ∨ ∃ line, rest = ' ' :: line) :
    k.rest net (str ++ rest) = rest.dropWhile isWhiteSpaceChar := by
  rw [Key.rest, (h.match_ hrest).1, List.drop_left]

/-! ## Lines -/

/-- The texts with a space between them. -/
def written (texts : List (List Char)) : List Char := [' '].intercalate texts

theorem written_singleton (str : List Char) : written [str] = str := List.intercalate_singleton

theorem written_cons_cons (str str' : List Char) (texts : List (List Char)) :
    written (str :: str' :: texts) = str ++ ' ' :: written (str' :: texts) := by
  rw [written, List.intercalate_cons_cons, List.append_assoc]
  rfl

theorem written_append (texts : List (List Char)) (hne : texts ≠ []) (below : List (List Char)) :
    ∃ rest, (rest = [] ∨ ∃ line, rest = ' ' :: line) ∧ written (texts ++ below) = written texts ++ rest := by
  cases below with
  | nil => exact ⟨[], .inl rfl, by rw [List.append_nil, List.append_nil]⟩
  | cons str' below =>
    refine ⟨' ' :: written (str' :: below), .inr ⟨_, rfl⟩, ?_⟩
    induction texts with
    | nil => exact absurd rfl hne
    | cons str texts ih =>
      cases texts with
      | nil => rw [List.singleton_append, written_cons_cons, written_singleton]
      | cons str'' texts =>
        rw [List.cons_append, List.cons_append, written_cons_cons, written_cons_cons, List.append_assoc,
          List.cons_append, ← ih (List.cons_ne_nil _ _), List.cons_append]

/-- What is written does not begin with white space. -/
theorem written_solid (h : Solid str) (texts : List (List Char)) (rest : List Char) :
    written (str :: texts) ++ rest ≠ [] ∧
      (' ' :: (written (str :: texts) ++ rest)).dropWhile isWhiteSpaceChar = written (str :: texts) ++ rest := by
  obtain ⟨c, s, rfl⟩ := List.exists_cons_of_ne_nil h.1
  have hc := h.2 c List.mem_cons_self
  rw [written, List.intercalate_cons_cons_left, List.cons_append, List.dropWhile_cons_of_pos (by decide),
    List.dropWhile_cons_of_neg (by simp [hc])]
  exact ⟨List.cons_ne_nil _ _, rfl⟩

variable {q ks : List Key} {texts : List (List Char)} {args : List Arg}

theorem Reads.isPrefix {line : List Char} (h : Reads net cmds p line q args) : p <+: q := by
  induction h with
  | last => exact List.prefix_append _ _
  | step _ _ _ ih => exact (List.prefix_append _ _).trans ih

theorem next_of_begins (h : ∃ x ∈ cmds, p ++ k :: ks <+: x.1.map scan) :
    Next cmds p k ∧ ∃ x ∈ cmds, p ++ [k] ++ ks <+: x.1.map scan := by
  obtain ⟨x, hx, hp⟩ := h
  rw [List.append_cons] at hp
  exact ⟨⟨x, hx, (List.prefix_append _ _).trans hp⟩, x, hx, hp⟩

/-- A line that begins with words as they are written is read as these words first. -/
theorem Reads.begins (htable : Table cmds) (h : List.Forall₂ (Stands net) ks texts)
    (hnext : ∃ x ∈ cmds, p ++ ks <+: x.1.map scan) (hrest : rest = [] ∨ ∃ line, rest = ' ' :: line)
    (hr : Reads net cmds p (written texts ++ rest) q args) : p ++ ks <+: q := by
  induction h generalizing p args with
  | nil =>
    rw [List.append_nil]
    exact hr.isPrefix
  | @cons k str ks texts hk h ih =>
    obtain ⟨hnext', hbelow⟩ := next_of_begins hnext
    rw [List.append_cons]
    cases h with
    | nil =>
      rw [written_singleton, reads_iff (hk.fits htable hnext' hrest)] at hr
      rw [List.append_nil]
      rcases hr with ⟨-, -, rfl, -⟩ | ⟨-, as, hr, -⟩
      · exact List.prefix_refl _
      · exact hr.isPrefix
    | @cons k' str' ks texts hk' h =>
      obtain ⟨hne, hdrop⟩ := written_solid hk'.solid texts rest
      have hspace : ' ' :: (written (str' :: texts) ++ rest) = [] ∨
          ∃ line, ' ' :: (written (str' :: texts) ++ rest) = ' ' :: line := .inr ⟨_, rfl⟩
      rw [written_cons_cons, List.append_assoc, List.cons_append, reads_iff (hk.fits htable hnext' hspace),
        hk.rest_eq hspace, hdrop] at hr
      rcases hr with ⟨hnil, -⟩ | ⟨-, as, hr, -⟩
      · exact absurd hnil hne
      · exact ih hbelow hr

/-- A command is read as it has been written. -/
theorem reads_written (htable : Table cmds) (h : List.Forall₂ (Stands net) ks texts) (hne : ks ≠ [])
    (hnext : ∃ x ∈ cmds, p ++ ks <+: x.1.map scan) :
    Reads net cmds p (written texts) (p ++ ks) (List.zipWith Key.arg ks texts).flatten := by
  induction h generalizing p with
  | nil => exact absurd rfl hne
  | @cons k str ks texts hk h ih =>
    obtain ⟨hnext', hbelow⟩ := next_of_begins hnext
    cases h with
    | nil =>
      have hfits : Fits net cmds p (str ++ []) k := hk.fits htable hnext' (.inl rfl)
      rw [written_singleton, ← List.append_nil str]
      refine (reads_iff hfits).mpr (.inl ⟨hk.rest_eq (.inl rfl), (hk.match_ (.inl rfl)).2.2, rfl, ?_⟩)
      rw [hk.read_eq (.inl rfl), List.append_nil]
      exact List.append_nil _
    | @cons k' str' ks texts hk' h =>
      obtain ⟨hsome, hdrop⟩ := written_solid hk'.solid texts []
      rw [List.append_nil] at hsome hdrop
      have hspace : ' ' :: written (str' :: texts) = [] ∨ ∃ line, ' ' :: written (str' :: texts) = ' ' :: line :=
        .inr ⟨_, rfl⟩
      have hbelow' := ih (List.cons_ne_nil k' ks) hbelow
      rw [← List.append_cons] at hbelow'
      rw [written_cons_cons]
      rw [reads_iff (hk.fits htable hnext' hspace), hk.rest_eq hspace, hk.read_eq hspace, hdrop]
      exact .inr ⟨hsome, _, hbelow', rfl⟩

theorem exists_of_installed {fn : F} (h : installed cmds q = some fn) : ∃ x ∈ cmds, x.1.map scan = q ∧ x.2 = fn := by
  obtain ⟨x, hx, rfl⟩ := Option.map_eq_some_iff.mp h
  have hmem := List.mem_filter.mp (List.mem_of_getLast? hx)
  exact ⟨x, hmem.1, of_decide_eq_true hmem.2, rfl⟩

theorem parseCmd_eq (net : Net) (n : Node F) (ws : List String) :
    parseCmd net n ws = parseLine net n (written (ws.map String.toList)) false := by
  rw [parseCmd, String.toList_intercalate]
  rfl

/-- A command with a text for each of its parameters runs the function that was installed last for
it, with these texts as the arguments. -/
theorem parseCmd_written (net : Net) (cmds : List (List String × F)) (htable : Table cmds) (cmd ws : List String)
    (fn : F) (hne : cmd ≠ []) (hfn : installed cmds (cmd.map scan) = some fn)
    (h : List.Forall₂ (fun w s => Stands net (scan w) s.toList) cmd ws) :
    (parseCmd net (newParser cmds) ws).answer =
      (.success, some fn, (List.zipWith (fun w s => (scan w).arg s.toList) cmd ws).flatten) := by
  have hall : List.Forall₂ (Stands net) (cmd.map scan) (ws.map String.toList) := by
    rw [List.forall₂_map_left_iff, List.forall₂_map_right_iff]
    exact h
  obtain ⟨x, hx, hq, -⟩ := exists_of_installed hfn
  have hread : Reads net cmds [] _ _ _ :=
    reads_written htable hall (List.map_eq_nil_iff.not.mpr hne) ⟨x, hx, hq ▸ List.prefix_refl _⟩
  rw [parseCmd_eq, parseLine, parse_success_iff _ _ [] _ [] (Nat.lt_succ_self _) rfl]
  refine ⟨_, _, hread, hfn, ?_⟩
  rw [List.zipWith_map]
  rfl

/-- Commands of `initConfig`, with the names of their functions. -/
def accessListCommands : List (List String × String) :=
  [(["policy", "access-list", "WORD"], "quaggaPolicyAccessList"),
    (["policy", "access-list", "WORD", "rule", "WORD"], "quaggaPolicyAccessListRule"),
    (["policy", "access-list", "WORD", "rule", "WORD", "source", "host", "A.B.C.D"],
      "quaggaPolicyAccessListRuleSourceHost"),
    (["policy", "access-list6", "WORD"], "quaggaPolicyAccessList6")]

theorem parseCmd_written_host :
    (parseCmd ⟨fun _ => none⟩ (newParser accessListCommands)
        ["policy", "access-list", "10", "rule", "5", "source", "host", "10.0.0.1"]).answer =
      (.success, some "quaggaPolicyAccessListRuleSourceHost",
        [.text "10".toList, .text "5".toList, .address .ipv4 "10.0.0.1".toList]) := by
  refine parseCmd_written _ accessListCommands ⟨by decide, by decide⟩
    ["policy", "access-list", "WORD", "rule", "WORD", "source", "host", "A.B.C.D"] _ _ (List.cons_ne_nil _ _)
    (by decide) ?_
  exact .cons (stands_scan (by decide) (by decide)) (.cons (stands_scan (by decide) (by decide))
    (.cons (.param (by decide) (by decide) (by decide) (by decide) (by decide) (by decide))
    (.cons (stands_scan (by decide) (by decide))
    (.cons (.param (by decide) (by decide) (by decide) (by decide) (by decide) (by decide))
    (.cons (stands_scan (by decide) (by decide)) (.cons (stands_scan (by decide) (by decide))
    (.cons (.param (by decide) (by decide) (by decide) (by decide) (by decide) (by decide)) .nil)))))))

end OpenConfigd.Cmd
