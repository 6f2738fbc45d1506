import OpenConfigd.Cmd.Parser

/-!
# What a line is read as

The commands that are installed say what a line means, without a tree: the line is a sequence of
words of a command, each of which fits what is left of the line better than any other word that
is next in a command (`Fits`, `Reads`). `Parse` finds just that (`parseLine_success_iff`).
-/

namespace OpenConfigd.Cmd

variable {F : Type} (net : Net) (cmds : List (List String × F))

/-- What a word takes of a line. -/
def Key.read (k : Key) (line : List Char) : List Char := line.take (k.match_ net line).1

/-- What is left of it behind the white space that follows. -/
def Key.rest (k : Key) (line : List Char) : List Char :=
  (line.drop (k.match_ net line).1).dropWhile isWhiteSpaceChar

/-- The word is the next one of a command that begins so. -/
def Next (p : List Key) (k : Key) : Prop := ∃ x ∈ cmds, p ++ [k] <+: x.1.map scan

/-- Of the words that are next it fits the line best. -/
def Fits (p : List Key) (line : List Char) (k : Key) : Prop :=
  Next cmds p k ∧ (k.match_ net line).2 ≠ .none ∧
    ∀ k', Next cmds p k' → k' ≠ k → (k'.match_ net line).2.rank < (k.match_ net line).2.rank

/-- Behind the words `p` the line is read as the rest of the words `q`, with these arguments. A word
that is not complete may be read, but not as the last one. -/
inductive Reads : List Key → List Char → List Key → List Arg → Prop where
  | last {p : List Key} {line : List Char} {k : Key} : Fits net cmds p line k →
      (k.match_ net line).2 ≠ .incomplete → k.rest net line = [] →
      Reads p line (p ++ [k]) (k.arg (k.read net line))
  | step {p q : List Key} {line : List Char} {k : Key} {args : List Arg} : Fits net cmds p line k →
      k.rest net line ≠ [] → Reads (p ++ [k]) (k.rest net line) q args →
      Reads p line q (k.arg (k.read net line) ++ args)

/-- The function that was installed last for these words. -/
def installed (q : List Key) : Option F := ((cmds.filter fun x => x.1.map scan = q).getLast?).map Prod.snd

/-- The result of a parse without the completions. -/
def Parsed.answer (r : Parsed F) : ParseResult × Option F × List Arg := (r.result, r.fn, r.args)

variable {net cmds} {n : Node F} {p q : List Key} {line : List Char} {k : Key} {args args' : List Arg} {fn : F}

/-! ## The tree -/

theorem newParser_eq (cmds : List (List String × F)) :
    newParser cmds = PathMap.Node.ofList (cmds.map fun x => (x.1.map scan, x.2)) := by
  rw [newParser, PathMap.Node.ofList, List.foldl_map]
  rfl

theorem get_newParser (cmds : List (List String × F)) (q : List Key) : (newParser cmds).get q = installed cmds q := by
  rw [newParser_eq, PathMap.Node.get_ofList, installed, List.filter_map, List.getLast?_map, Option.map_map]
  rfl

theorem child_isSome_iff (hn : (newParser cmds).find p = some n) : (n.below.child k).isSome ↔ Next cmds p k := by
  have hfind : (newParser cmds).find (p ++ [k]) = n.below.child k := by
    rw [PathMap.Node.find_snoc, hn, Option.bind_some]
  rw [← hfind, newParser_eq, ← PathMap.Node.Has, PathMap.Node.has_ofList,
    or_iff_right (List.append_ne_nil_of_right_ne_nil p (List.cons_ne_nil k []))]
  simp only [List.mem_map, exists_exists_and_eq_and]
  rfl

/-- The node that leads is the one of the word that fits best. -/
theorem leads_iff (hn : (newParser cmds).find p = some n) {x : Key × Node F} :
    Best.Leads (score net line) n.below.edges x ↔ Fits net cmds p line x.1 ∧ (newParser cmds).find (p ++ [x.1]) = some x.2 := by
  have hdistinct : n.below.Distinct := PathMap.Node.find_distinct (newParser_eq cmds ▸ PathMap.Node.distinct_ofList _) hn
  have hfind : ∀ k, (newParser cmds).find (p ++ [k]) = n.below.child k := fun k => by
    rw [PathMap.Node.find_snoc, hn, Option.bind_some]
  have hedge : ∀ y : Key × Node F, y ∈ n.below.edges ↔ n.below.child y.1 = some y.2 :=
    fun y => PathMap.Forest.mem_edges hdistinct
  rw [Best.leads_iff_of_nodup (List.Nodup.of_map _ (PathMap.Forest.nodup_labels hdistinct)), hedge, hfind, score,
    rank_pos, and_comm (b := n.below.child x.1 = some x.2)]
  refine and_congr_right fun hx => ?_
  have hnext : Next cmds p x.1 := (child_isSome_iff hn).mp (Option.isSome_of_eq_some hx)
  rw [Fits, and_iff_right hnext]
  refine and_congr_right fun _ => ?_
  constructor
  · intro hlt k' hk' hne
    obtain ⟨m, hm⟩ := Option.isSome_iff_exists.mp ((child_isSome_iff hn).mpr hk')
    exact hlt (k', m) ((hedge _).mpr hm) fun heq => hne (congrArg Prod.fst heq)
  · intro hlt y hy hne
    have hy := (hedge y).mp hy
    refine hlt y.1 ((child_isSome_iff hn).mp (Option.isSome_of_eq_some hy)) fun heq => hne ?_
    rw [heq, hx, Option.some.injEq] at hy
    exact Prod.ext heq hy.symm

/-! ## One word -/

theorem answer_of_leads {x : Key × Node F} (h : Best.Leads (score net line) n.below.edges x) (complete : Bool)
    (fuel : Nat) (args : List Arg) : (parse net complete (fuel + 1) n line args).answer =
      if x.1.rest net line = [] then
        if x.2.value.isNone ∨ (x.1.match_ net line).2 = .incomplete then (.incomplete, none, [])
        else (.success, x.2.value, if complete then args else args ++ x.1.arg (x.1.read net line))
      else (parse net complete fuel x.2 (x.1.rest net line)
        (if complete then args else args ++ x.1.arg (x.1.read net line))).answer := by
  obtain ⟨hnode, hcount, hbest, hpos⟩ := parseMatch_of_leads h complete
  rw [parse]
  simp only [hnode, hcount, hbest, hpos, Nat.lt_irrefl, if_false]
  rw [← Key.rest, ← Key.read]
  by_cases hrest : x.1.rest net line = []
  · rw [if_pos hrest, if_pos hrest]
    split
    · rfl
    · rfl
  · rw [if_neg hrest, if_neg hrest]

theorem answer_of_not_leads (h : ∀ x, ¬ Best.Leads (score net line) n.below.edges x) (complete : Bool)
    (fuel : Nat) (args : List Arg) :
    (parse net complete (fuel + 1) n line args).answer =
      (if (Best.ofList (score net line) n.below.edges).count = 0 then .noMatch else .ambiguous, none, []) := by
  have hs : (parseMatch net n line { complete }).Tallies net line _ := parseMatch_tallies n line complete
  rw [parse]
  dsimp only
  cases hnode : (parseMatch net n line { complete }).node with
  | none =>
    rw [hs.node] at hnode
    rw [if_pos ((Best.ofList_count_eq_zero _).mpr hnode)]
    rfl
  | some x =>
    dsimp only
    by_cases hcount : 1 < (parseMatch net n line { complete }).count
    · rw [if_pos hcount, if_neg (by rw [← hs.count]; omega)]
      rfl
    · exact absurd (leads_of_parseMatch hnode hcount) (h x)

theorem Fits.unique {k' : Key} (h : Fits net cmds p line k) (h' : Fits net cmds p line k') : k' = k := by
  by_contra hne
  exact absurd ((h.2.2 k' h'.1 hne).trans (h'.2.2 k h.1 (Ne.symm hne))) (Nat.lt_irrefl _)

/-- A line is read word by word. -/
theorem reads_iff (hk : Fits net cmds p line k) : Reads net cmds p line q args ↔
    k.rest net line = [] ∧ (k.match_ net line).2 ≠ .incomplete ∧ q = p ++ [k] ∧ args = k.arg (k.read net line) ∨
    k.rest net line ≠ [] ∧ ∃ as, Reads net cmds (p ++ [k]) (k.rest net line) q as ∧
      args = k.arg (k.read net line) ++ as := by
  constructor
  · intro h
    cases h with
    | last hk' hcomplete hrest =>
      cases hk.unique hk'
      exact .inl ⟨hrest, hcomplete, rfl, rfl⟩
    | step hk' hrest h =>
      cases hk.unique hk'
      exact .inr ⟨hrest, _, h, rfl⟩
  · rintro (⟨hrest, hcomplete, rfl, rfl⟩ | ⟨hrest, as, h, rfl⟩)
    · exact .last hk hcomplete hrest
    · exact .step hk hrest h

theorem Reads.fits (h : Reads net cmds p line q args) : ∃ k, Fits net cmds p line k := by
  cases h with
  | last hk => exact ⟨_, hk⟩
  | step hk => exact ⟨_, hk⟩

/-! ## The line -/

theorem parse_success_iff (fuel : Nat) : ∀ (n : Node F) (p : List Key) (line : List Char) (args : List Arg),
    n.below.height < fuel → (newParser cmds).find p = some n →
    ((parse net false fuel n line args).answer = (.success, some fn, args') ↔
      ∃ q as, Reads net cmds p line q as ∧ installed cmds q = some fn ∧ args' = args ++ as) := by
  induction fuel with
  | zero => exact fun _ _ _ _ h => absurd h (Nat.not_lt_zero _)
  | succ fuel ih =>
    intro n p line args hfuel hn
    by_cases hlead : ∃ x, Best.Leads (score net line) n.below.edges x
    · obtain ⟨x, hx⟩ := hlead
      obtain ⟨hk, hfind⟩ := (leads_iff hn).mp hx
      have hvalue : installed cmds (p ++ [x.1]) = x.2.value := by
        rw [← get_newParser, PathMap.Node.get, hfind, Option.bind_some]
      rw [answer_of_leads hx]
      simp only [reads_iff hk]
      by_cases hrest : x.1.rest net line = []
      · simp only [hrest, if_pos, Bool.false_eq_true, if_false, true_and, ne_eq, not_true_eq_false, false_and, or_false]
        constructor
        · intro h
          split at h
          · cases h
          · rename_i hnot
            obtain ⟨hsome, hcomplete⟩ := not_or.mp hnot
            simp only [Prod.mk.injEq, true_and] at h
            exact ⟨_, _, ⟨hcomplete, rfl, rfl⟩, hvalue.trans h.1, h.2.symm⟩
        · rintro ⟨q, as, ⟨hcomplete, rfl, rfl⟩, hfn, rfl⟩
          rw [hvalue] at hfn
          rw [if_neg (by simp [hfn, hcomplete]), hfn]
      · have hlt : x.2.below.height < fuel := by
          have := PathMap.Forest.height_lt (Best.Leads.mem hx)
          omega
        simp only [hrest, if_false, Bool.false_eq_true, false_and, ne_eq, not_false_eq_true, true_and, false_or]
        rw [ih x.2 (p ++ [x.1]) _ _ hlt hfind]
        constructor
        · rintro ⟨q, as, h, hfn, rfl⟩
          exact ⟨q, _, ⟨as, h, rfl⟩, hfn, List.append_assoc _ _ _⟩
        · rintro ⟨q, _, ⟨as, h, rfl⟩, hfn, rfl⟩
          exact ⟨q, as, h, hfn, (List.append_assoc _ _ _).symm⟩
    · rw [answer_of_not_leads (not_exists.mp hlead)]
      refine iff_of_false ?_ ?_
      · split
        · simp
        · simp
      · rintro ⟨q, as, h, -⟩
        obtain ⟨k, hk⟩ := h.fits
        obtain ⟨m, hm⟩ := Option.isSome_iff_exists.mp ((child_isSome_iff hn).mpr hk.1)
        refine hlead ⟨(k, m), (leads_iff hn).mpr ⟨hk, ?_⟩⟩
        rw [PathMap.Node.find_snoc, hn, Option.bind_some, hm]

/-- What a line is completed with does not change what it is parsed as. -/
theorem parse_complete (fuel : Nat) : ∀ (n : Node F) (line : List Char) (args args' : List Arg),
    (parse net true fuel n line args).answer.1 = (parse net false fuel n line args').answer.1 ∧
      (parse net true fuel n line args).answer.2.1 = (parse net false fuel n line args').answer.2.1 := by
  induction fuel with
  | zero => exact fun _ _ _ _ => ⟨rfl, rfl⟩
  | succ fuel ih =>
    intro n line args args'
    by_cases hlead : ∃ x, Best.Leads (score net line) n.below.edges x
    · obtain ⟨x, hx⟩ := hlead
      rw [answer_of_leads hx, answer_of_leads hx]
      by_cases hrest : x.1.rest net line = []
      · rw [if_pos hrest, if_pos hrest]
        split
        · exact ⟨rfl, rfl⟩
        · exact ⟨rfl, rfl⟩
      · rw [if_neg hrest, if_neg hrest]
        exact ih x.2 _ _ _
    · rw [answer_of_not_leads (not_exists.mp hlead), answer_of_not_leads (not_exists.mp hlead)]
      exact ⟨rfl, rfl⟩

/-- A line is parsed just if it is read as the words of a command; the function is the one that was
installed last for them. -/
theorem parseLine_success_iff (net : Net) (cmds : List (List String × F)) (line : List Char) (fn : F)
    (args : List Arg) : (parseLine net (newParser cmds) line false).answer = (.success, some fn, args) ↔
      ∃ q, Reads net cmds [] line q args ∧ installed cmds q = some fn := by
  rw [parseLine, parse_success_iff _ _ [] line [] (Nat.lt_succ_self _) rfl]
  constructor
  · rintro ⟨q, as, h, hfn, rfl⟩
    exact ⟨q, h, hfn⟩
  · rintro ⟨q, h, hfn⟩
    exact ⟨q, args, h, hfn, rfl⟩

end OpenConfigd.Cmd
