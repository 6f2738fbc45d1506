import OpenConfigd.Config.Edit
import OpenConfigd.Lib.Best

/-!
# What a path names

`ParseDelete` follows the names in the tree, abbreviated where no other child fits as well, and on a
leaf goes on with its values.

* `Names`: the path leads to a node, or to a value of a leaf-list;
* `parseDelete_names`: an accepted path names the node that `Delete` is called on.
-/

namespace OpenConfigd

/-- What a path can name. -/
inductive Target where
  | node (loc : Loc)
  | value (loc : Loc) (v : String)

/-- The node that is named, or whose value is. -/
def Target.loc : Target → Loc
  | .node loc | .value loc _ => loc

namespace Config

/-- The node is a leaf-list. -/
def isLeafList (c : Config) : Bool := (c.entry.map Entry.isLeafList).getD false

/-- The steps to the children. -/
def steps (c : Config) : List Step :=
  (c.configs.map fun d => ⟨.configs, d.name⟩) ++ c.keys.map fun d => ⟨.keys, d.name⟩

/-- The token matches one child better than all others. -/
def Picks (c : Config) (token : String) (s : Step) : Prop :=
  Best.Leads (fun t : Step => (matchKeyword token t.name).rank) c.steps s

end Config

/-- The tokens name the target, seen from the node at a place. -/
inductive Names (root : Config) : Loc → List String → Target → Prop
  | here (loc : Loc) : Names root loc [] (.node loc)
  | child {loc : Loc} {c : Config} {token : String} {path : List String} {s : Step} {t : Target} :
    root.get? loc = some c → c.hasDir = true → c.Picks token s → Names root (loc ++ [s]) path t →
    Names root loc (token :: path) t
  | value {loc : Loc} {c : Config} {token : String} :
    root.get? loc = some c → c.hasDir = false → c.isLeafList = false →
    matchKeyword token c.value ≠ .typeNone → Names root loc [token] (.node loc)
  | item {loc : Loc} {c : Config} {token v : String} :
    root.get? loc = some c → c.hasDir = false → c.isLeafList = true → v ∈ c.valueList →
    matchKeyword token v ≠ .typeNone → Names root loc [token] (.value loc v)
  | items {loc : Loc} {c : Config} {token v w : String} {path : List String} :
    root.get? loc = some c → c.hasDir = false → c.isLeafList = true → w ∈ c.valueList →
    matchKeyword token w ≠ .typeNone → Names root loc path (.value loc v) →
    Names root loc (token :: path) (.value loc v)

section

variable {root c : Config} {loc : Loc} {token str : String} {path cmds : List String} {t : Target}

/-! ## One token -/

/-- The candidates for the children, in one list. -/
theorem matchConfigDir_eq (hg : root.get? loc = some c) (s : YMatchState) :
    matchConfigDir root loc str s =
      c.steps.foldl (fun s t => matchConfig (loc ++ [t]) t.name str s) s := by
  rw [matchConfigDir, hg, Config.steps, List.foldl_append, List.foldl_map, List.foldl_map]

theorem matchConfig_eq (l : Loc) (val : String) {s : YMatchState} (hc : s.complete = false) :
    matchConfig l val str s =
      if matchKeyword str val = .typeNone then s
      else if s.best.rank < (matchKeyword str val).rank then
        { s with best := matchKeyword str val, config := some l, count := 1 }
      else if matchKeyword str val = s.best then { s with count := s.count + 1 } else s := by
  rw [matchConfig]
  simp only [hc, Bool.false_eq_true, if_false]

/-- The tally over the children is the best of their names. -/
theorem matchConfig_best (l : List Step) (loc : Loc) (str : String) {s : YMatchState}
    (hc : s.complete = false) (hb : s.best = .typeNone) (hn : s.count = 0) :
    let b := Best.ofList (fun t : Step => (matchKeyword str t.name).rank) l
    l.foldl (fun s t => matchConfig (loc ++ [t]) t.name str s) s =
      { s with
        best := (l.foldl (fun s t => matchConfig (loc ++ [t]) t.name str s) s).best
        count := b.count
        config := (b.first.map fun t => loc ++ [t]).or s.config } ∧
    (l.foldl (fun s t => matchConfig (loc ++ [t]) t.name str s) s).best.rank = b.rank := by
  induction l using List.reverseRecOn with
  | nil =>
    refine ⟨?_, congrArg MatchType.rank hb⟩
    simp only [List.foldl_nil, Best.ofList_nil, Option.map_none, Option.none_or, ← hn]
  | append_singleton l x ih =>
    obtain ⟨heq, hrank⟩ := ih
    rw [List.foldl_append, Best.ofList_snoc, Best.add]
    simp only [List.foldl_cons, List.foldl_nil]
    generalize l.foldl (fun s t => matchConfig (loc ++ [t]) t.name str s) s = r at heq hrank ⊢
    generalize Best.ofList (fun t : Step => (matchKeyword str t.name).rank) l = b at heq hrank ⊢
    have hrc : r.complete = false := by
      rw [heq]
      exact hc
    have hcount : r.count = b.count := by rw [heq]
    have hsame : matchKeyword str x.name = r.best ↔ (matchKeyword str x.name).rank = b.rank :=
      ⟨fun h => by rw [← hrank, ← h], fun h => MatchType.rank_inj (h.trans hrank.symm)⟩
    rw [matchConfig_eq _ _ hrc, hrank]
    by_cases h0 : matchKeyword str x.name = .typeNone
    · rw [if_pos h0, if_pos (MatchType.rank_eq_zero.mpr h0)]
      exact ⟨heq, hrank⟩
    · rw [if_neg h0, if_neg (mt MatchType.rank_eq_zero.mp h0)]
      by_cases hlt : b.rank < (matchKeyword str x.name).rank
      · rw [if_pos hlt, if_pos hlt]
        refine ⟨?_, rfl⟩
        rw [heq]
        rfl
      · rw [if_neg hlt, if_neg hlt]
        by_cases he : matchKeyword str x.name = r.best
        · rw [if_pos he, if_pos (hsame.mp he)]
          refine ⟨?_, hrank⟩
          rw [hcount]
          rw [heq]
        · rw [if_neg he, if_neg (mt hsame.mpr he)]
          exact ⟨heq, hrank⟩

/-- On a node with children one token picks one of them, or is not unique. -/
theorem matchConfigAt_dir (str : String) (hg : root.get? loc = some c) (hd : c.hasDir = true)
    {s : YMatchState} (hc : s.complete = false) (hb : s.best = .typeNone) (hn : s.count = 0) :
    (matchConfigAt root loc str s).complete = false ∧ (matchConfigAt root loc str s).index = s.index ∧
    ((matchConfigAt root loc str s).count = 1 → ∃ t, c.Picks str t) ∧
    ∀ t, c.Picks str t → (matchConfigAt root loc str s).count = 1 ∧
      (matchConfigAt root loc str s).config = some (loc ++ [t]) ∧
      (matchConfigAt root loc str s).best = matchKeyword str t.name := by
  have heq : matchConfigAt root loc str s =
      c.steps.foldl (fun s t => matchConfig (loc ++ [t]) t.name str s) s := by
    rw [matchConfigAt, hg, Option.map_some, hd, Option.getD_some, if_pos rfl, matchConfigDir_eq hg]
  obtain ⟨hfold, hrank⟩ := matchConfig_best c.steps loc str hc hb hn
  rw [← heq] at hfold hrank
  generalize matchConfigAt root loc str s = r at hfold hrank ⊢
  refine ⟨by rw [hfold]; exact hc, by rw [hfold], fun h1 => ?_, fun t ht => ?_⟩
  · rw [hfold] at h1
    obtain ⟨t, ht, -⟩ := Best.ofList_count_one h1
    exact ⟨t, ht⟩
  · obtain ⟨hr, hcount, hfirst⟩ := Best.Leads.ofList ht
    refine ⟨by rw [hfold]; exact hcount, ?_, MatchType.rank_inj (hrank.trans hr)⟩
    rw [hfold, hfirst]
    rfl

/-- The value of a leaf that a token is compared with. -/
def Config.valueAt (c : Config) (index : Nat) : Option String :=
  if c.isLeafList then c.valueList[index]? else if index = 0 then some c.value else none

/-- On a leaf one token fits the next value. -/
theorem matchConfigAt_leaf (str : String) (hg : root.get? loc = some c) (hd : c.hasDir = false)
    {s : YMatchState} (hc : s.complete = false) (hb : s.best = .typeNone) (hn : s.count = 0) :
    (matchConfigAt root loc str s).complete = false ∧
    (matchConfigAt root loc str s).index = s.index + 1 ∧
    ((matchConfigAt root loc str s).count = 1 →
      ∃ v, c.valueAt s.index = some v ∧ matchKeyword str v ≠ .typeNone) ∧
    ∀ v, c.valueAt s.index = some v → matchKeyword str v ≠ .typeNone →
      (matchConfigAt root loc str s).count = 1 ∧ (matchConfigAt root loc str s).config = some loc ∧
      (matchConfigAt root loc str s).best = matchKeyword str v := by
  have heq : matchConfigAt root loc str s =
      { (c.valueAt s.index).elim s (fun v => matchConfig loc v str s) with
        index := s.index + 1 } := by
    rw [matchConfigAt, hg, Option.map_some, hd, Option.getD_some, if_neg (by simp), matchConfigValue,
      hg, Config.valueAt, Config.isLeafList]
    dsimp only
    split
    · cases c.valueList[s.index]? <;> rfl
    · split <;> rfl
  rw [heq]
  cases hv : c.valueAt s.index with
  | none => exact ⟨hc, rfl, fun h => by simp [hn] at h, fun v h => by cases h⟩
  | some v =>
    dsimp only [Option.elim]
    rw [matchConfig_eq loc v hc, hb]
    by_cases h0 : matchKeyword str v = .typeNone
    · rw [if_pos h0]
      exact ⟨hc, rfl, fun h => by simp [hn] at h, fun w hw hne => by cases hw; exact absurd h0 hne⟩
    · have hpos : MatchType.typeNone.rank < (matchKeyword str v).rank :=
        Nat.pos_of_ne_zero (mt MatchType.rank_eq_zero.mp h0)
      rw [if_neg h0, if_pos hpos]
      exact ⟨hc, rfl, fun _ => ⟨v, rfl, h0⟩, fun w hw _ => by cases hw; exact ⟨rfl, rfl, rfl⟩⟩

/-! ## The path -/

/-- `ParseDelete` accepts the node, once its name or value is complete. -/
def Config.Accepted (c : Config) : Prop :=
  (c.isValueLeaf || c.isContainer) = true ∧ (c.entry.map (·.readOnlyConfig)).getD false = false

/-- One token of an accepted path. -/
theorem parseDeleteFrom_success {s₀ : YMatchState} {r : ParseResult} (hc : s₀.complete = false)
    (h : parseDeleteFrom (str :: cmds) root loc s₀ = some r) (hs : r.code = .parseSuccess) :
    let s := matchConfigAt root loc str { s₀ with best := .typeNone, count := 0, comps := [] }
    s.count = 1 ∧ ∃ l, s.config = some l ∧
      (cmds = [] ∧ s.best = .typeExact ∧ (∃ c, root.get? l = some c ∧ c.Accepted) ∧
          r.tree = delete root l true ∨
        cmds ≠ [] ∧ parseDeleteFrom cmds root l s = some r) := by
  have hsc := (matchConfigAt_complete root loc str
    { s₀ with best := .typeNone, count := 0, comps := [] }).trans hc
  rw [parseDeleteFrom] at h
  generalize matchConfigAt root loc str { s₀ with best := .typeNone, count := 0, comps := [] } = s
    at h hsc ⊢
  dsimp only at h ⊢
  split at h
  · cases h
    cases hs
  · split at h
    · cases h
      cases hs
    · refine ⟨by omega, ?_⟩
      cases hl : s.config with
      | none =>
        rw [hl] at h
        cases h
      | some l =>
        refine ⟨l, rfl, ?_⟩
        rw [hl] at h
        cases cmds with
        | cons cmd cmds => exact .inr ⟨List.cons_ne_nil _ _, h⟩
        | nil =>
          left
          simp only [hsc, Bool.false_and, Bool.false_eq_true, if_false] at h
          split at h
          · cases h
            cases hs
          · rename_i hbest
            split at h
            · cases h
            · rename_i c hg
              split at h
              · rename_i hacc
                split at h
                · cases h
                  cases hs
                · rename_i hro
                  cases h
                  exact ⟨rfl, not_not.mp hbest, ⟨c, hg, hacc, by simpa using hro⟩, rfl⟩
              · cases h
                cases hs

theorem parseDeleteFrom_last {s₀ : YMatchState} {l : Loc} (hc : s₀.complete = false)
    (h : let s := matchConfigAt root loc str { s₀ with best := .typeNone, count := 0, comps := [] }
      s.count = 1 ∧ s.config = some l ∧ s.best = .typeExact)
    (hg : root.get? l = some c) (ha : c.Accepted) :
    ∃ r, parseDeleteFrom [str] root loc s₀ = some r ∧ r.code = .parseSuccess ∧
      r.tree = delete root l true := by
  have hsc := (matchConfigAt_complete root loc str
    { s₀ with best := .typeNone, count := 0, comps := [] }).trans hc
  rw [parseDeleteFrom]
  generalize matchConfigAt root loc str { s₀ with best := .typeNone, count := 0, comps := [] } = s
    at h hsc ⊢
  obtain ⟨hcount, hl, hbest⟩ := h
  simp only [hcount, hl, hsc, hbest, hg, ha.1, ha.2, Nat.one_ne_zero, Nat.lt_irrefl, if_false, if_true,
    Bool.false_and, Bool.false_eq_true, ne_eq, not_true_eq_false]
  exact ⟨_, rfl, rfl, rfl⟩

theorem parseDeleteFrom_more {s₀ : YMatchState} {l : Loc}
    (h : let s := matchConfigAt root loc str { s₀ with best := .typeNone, count := 0, comps := [] }
      s.count = 1 ∧ s.config = some l) (hne : cmds ≠ []) :
    parseDeleteFrom (str :: cmds) root loc s₀ = parseDeleteFrom cmds root l
      (matchConfigAt root loc str { s₀ with best := .typeNone, count := 0, comps := [] }) := by
  rw [parseDeleteFrom]
  generalize matchConfigAt root loc str { s₀ with best := .typeNone, count := 0, comps := [] } = s
    at h ⊢
  obtain ⟨hcount, hl⟩ := h
  simp only [hcount, hl, Nat.one_ne_zero, Nat.lt_irrefl, if_false]
  cases cmds with
  | nil => exact absurd rfl hne
  | cons cmd cmds => rfl

theorem matchConfigAt_none (hg : root.get? loc = none) {s : YMatchState} :
    (matchConfigAt root loc str s).count = s.count := by
  rw [matchConfigAt, hg]
  simp only [Option.map_none, Option.getD_none, Bool.false_eq_true, if_false, matchConfigValue, hg]

theorem Config.valueAt_mem {index : Nat} {v : String} (h : c.valueAt index = some v)
    (hl : c.isLeafList = true) : v ∈ c.valueList := by
  rw [valueAt, hl, if_pos rfl] at h
  exact List.mem_of_getElem? h

theorem Config.valueAt_value {index : Nat} {v : String} (h : c.valueAt index = some v)
    (hl : c.isLeafList = false) : index = 0 ∧ v = c.value := by
  rw [valueAt, hl, if_neg (by simp)] at h
  split at h
  · exact ⟨‹_›, (Option.some.inj h).symm⟩
  · cases h

/-- On a leaf-list further tokens name values. -/
theorem Names.value_of_leafList (h : Names root loc path t) (hg : root.get? loc = some c)
    (hd : c.hasDir = false) (hl : c.isLeafList = true) (hne : path ≠ []) :
    ∃ v, t = .value loc v := by
  cases h with
  | here => exact absurd rfl hne
  | child hg' hd' =>
    obtain rfl := Option.some.inj (hg.symm.trans hg')
    rw [hd] at hd'
    cases hd'
  | value hg' _ hl' =>
    obtain rfl := Option.some.inj (hg.symm.trans hg')
    rw [hl] at hl'
    cases hl'
  | item => exact ⟨_, rfl⟩
  | items => exact ⟨_, rfl⟩

theorem parseDeleteFrom_names {s : YMatchState} {r : ParseResult} (hc : s.complete = false)
    (h : parseDeleteFrom path root loc s = some r) (hs : r.code = .parseSuccess) :
    path ≠ [] ∧ ∃ t c, Names root loc path t ∧ root.get? t.loc = some c ∧ c.Accepted ∧
      r.tree = delete root t.loc true := by
  induction path generalizing loc s with
  | nil => cases h
  | cons str cmds ih =>
    refine ⟨List.cons_ne_nil _ _, ?_⟩
    obtain ⟨hcount, l, hl, hrest⟩ := parseDeleteFrom_success hc h hs
    cases hg : root.get? loc with
    | none =>
      rw [matchConfigAt_none hg] at hcount
      cases hcount
    | some c =>
      cases hd : c.hasDir with
      | true =>
        have hm := matchConfigAt_dir str hg hd
          (s := { s with best := .typeNone, count := 0, comps := [] }) hc rfl rfl
        obtain ⟨hmc, -, hone, hpick⟩ := hm
        obtain ⟨t, ht⟩ := hone hcount
        obtain rfl : l = loc ++ [t] := Option.some.inj (hl.symm.trans (hpick t ht).2.1)
        rcases hrest with ⟨rfl, -, ⟨d, hd', hacc⟩, htree⟩ | ⟨-, hrest⟩
        · exact ⟨_, d, .child hg hd ht (.here _), hd', hacc, htree⟩
        · obtain ⟨-, t', d, hn, hd'⟩ := ih hmc hrest
          exact ⟨t', d, .child hg hd ht hn, hd'⟩
      | false =>
        have hm := matchConfigAt_leaf str hg hd
          (s := { s with best := .typeNone, count := 0, comps := [] }) hc rfl rfl
        obtain ⟨hmc, hindex, hone, hval⟩ := hm
        obtain ⟨v, hv, hne⟩ := hone hcount
        obtain rfl : l = loc := Option.some.inj (hl.symm.trans (hval v hv hne).2.1)
        cases hll : c.isLeafList with
        | true =>
          have hmem := Config.valueAt_mem hv hll
          rcases hrest with ⟨rfl, -, ⟨d, hd', hacc⟩, htree⟩ | ⟨hcmds, hrest⟩
          · exact ⟨_, d, .item hg hd hll hmem hne, hd', hacc, htree⟩
          · obtain ⟨-, t', d, hn, hd'⟩ := ih hmc hrest
            obtain ⟨w, rfl⟩ := hn.value_of_leafList hg hd hll hcmds
            exact ⟨_, d, .items hg hd hll hmem hne hn, hd'⟩
        | false =>
          obtain ⟨-, rfl⟩ := Config.valueAt_value hv hll
          rcases hrest with ⟨rfl, -, ⟨d, hd', hacc⟩, htree⟩ | ⟨hcmds, hrest⟩
          · exact ⟨_, d, .value hg hd hll hne, hd', hacc, htree⟩
          · -- A leaf has one value, so that a second token fits none.
            exfalso
            obtain ⟨cmd, cmds, rfl⟩ := List.exists_cons_of_ne_nil hcmds
            obtain ⟨hcount', -⟩ := parseDeleteFrom_success hmc hrest hs
            obtain ⟨-, -, hone', -⟩ := matchConfigAt_leaf cmd hg hd
              (s := { matchConfigAt root l str { s with best := .typeNone, count := 0, comps := [] } with
                best := .typeNone, count := 0, comps := [] }) hmc rfl rfl
            obtain ⟨w, hw, -⟩ := hone' hcount'
            obtain ⟨hz, -⟩ := Config.valueAt_value hw hll
            rw [show _ = _ from hindex] at hz
            cases hz

/-- An accepted path names the node that `Delete` is called on. -/
theorem parseDelete_names {r : ParseResult} (h : parseDelete root path = some r)
    (hs : r.code = .parseSuccess) : ∃ t c, Names root [] path t ∧ root.get? t.loc = some c ∧
      c.Accepted ∧ r.tree = delete root t.loc true :=
  (parseDeleteFrom_names rfl h hs).2

/-- A path names one node, and values of it or not. -/
theorem Names.same {t' : Target} (h : Names root loc path t) (h' : Names root loc path t') :
    t.loc = t'.loc ∧ ((∃ l, t = .node l) ↔ ∃ l, t' = .node l) := by
  induction h with
  | here =>
    cases h'
    exact ⟨rfl, Iff.rfl⟩
  | child hg hd ht _ ih =>
    cases h' with
    | child hg' hd' ht' hn' =>
      obtain rfl := Option.some.inj (hg.symm.trans hg')
      obtain rfl := ht.unique ht'
      exact ih hn'
    | value hg' hd' | item hg' hd' | items hg' hd' =>
      obtain rfl := Option.some.inj (hg.symm.trans hg')
      rw [hd] at hd'
      cases hd'
  | value hg hd hl =>
    cases h' with
    | value => exact ⟨rfl, Iff.rfl⟩
    | child hg' hd' =>
      obtain rfl := Option.some.inj (hg.symm.trans hg')
      rw [hd] at hd'
      cases hd'
    | item hg' _ hl' | items hg' _ hl' =>
      obtain rfl := Option.some.inj (hg.symm.trans hg')
      rw [hl] at hl'
      cases hl'
  | item hg hd hl | items hg hd hl =>
    obtain ⟨v, rfl⟩ := h'.value_of_leafList hg hd hl (List.cons_ne_nil _ _)
    exact ⟨rfl, by simp⟩

/-- Tokens that name a leaf-list lead `ParseDelete` to it. -/
theorem Names.follow {l : Loc} (rest : List String) (h : Names root loc path (.node l))
    (hg : root.get? l = some c) (hl : c.isLeafList = true) (hne : rest ≠ []) {s : YMatchState}
    (hc : s.complete = false) : ∃ s' : YMatchState, s'.complete = false ∧ s'.index = s.index ∧
      parseDeleteFrom (path ++ rest) root loc s = parseDeleteFrom rest root l s' := by
  generalize ht : Target.node l = t at h
  induction h generalizing s with
  | here loc =>
    cases ht
    exact ⟨s, hc, rfl, rfl⟩
  | @child loc d token path x t hg' hd hx hn ih =>
    obtain ⟨hmc, hindex, -, hpick⟩ := matchConfigAt_dir token hg' hd
      (s := { s with best := .typeNone, count := 0, comps := [] }) hc rfl rfl
    obtain ⟨hcount, hconf, -⟩ := hpick x hx
    obtain ⟨s', hc', hi', heq⟩ := ih hmc ht
    refine ⟨s', hc', hi'.trans hindex, ?_⟩
    rw [List.cons_append, parseDeleteFrom_more ⟨hcount, hconf⟩ (by simp [hne]), heq]
  | value hg' _ hl' =>
    cases ht
    obtain rfl := Option.some.inj (hg.symm.trans hg')
    rw [hl] at hl'
    cases hl'
  | item => cases ht
  | items => cases ht

end

end OpenConfigd
