import OpenConfigd.Config.Exact
import OpenConfigd.Subscribe.Stream

/-!
# Two ways to delete a path

`YangConfigPull` looks the path up by the names and deletes what it finds; `ParseDelete` matches
keywords and values, and asks whether the node may go.

* `Reached`, `Leads`, `Config.Fits`: where the two lead;
* `lookupByPath_iff`, `parseDeleteFrom_accepts`, `parseDeleteFrom_of_accepts`: that they are what the
  code follows;
* `pull_agrees_iff`: when both leave the same tree.
-/

namespace OpenConfigd

variable {env : Env} {ent : Entry}

/-- The places that `LookupByPath` goes to. A key that follows one which has keys is looked for
among the keys of all keys of the list. -/
inductive Reached (root : Config) : Loc → List String → Loc → Prop
  | here (loc : Loc) : Reached root loc [] loc
  | config {loc l : Loc} {c : Config} {token : String} {path : List String} :
    root.get? loc = some c → (c.lookup token).isSome →
    Reached root (loc ++ [⟨.configs, token⟩]) path l → Reached root loc (token :: path) l
  | key {loc l : Loc} {c : Config} {token : String} {path : List String} :
    root.get? loc = some c → c.lookup token = none → c.isKeyConfig = false →
    (c.lookupKeyShallow token).isSome →
    Reached root (loc ++ [⟨.keys, token⟩]) path l → Reached root loc (token :: path) l
  | nextKey {loc l : Loc} {c parent p : Config} {token : String} {path : List String} :
    root.get? loc = some c → c.lookup token = none → c.isKeyConfig = true →
    root.get? loc.dropLast = some parent →
    parent.keys.find? (fun p => (p.lookupKeyShallow token).isSome) = some p →
    Reached root (loc.dropLast ++ [⟨.keys, p.name⟩, ⟨.keys, token⟩]) path l →
    Reached root loc (token :: path) l

/-- The keywords lead from one place to the other. -/
inductive Leads (root : Config) : Loc → List String → Loc → Prop
  | here (loc : Loc) : Leads root loc [] loc
  | child {loc l : Loc} {c : Config} {token : String} {path : List String} {s : Step} :
    root.get? loc = some c → c.hasDir = true → c.Picks token s →
    Leads root (loc ++ [s]) path l → Leads root loc (token :: path) l

/-- The tokens fit the values of a leaf from a position on, the last one in full. -/
def Config.Fits (c : Config) : ℕ → List String → Prop
  | _, [] => False
  | i, [token] => ∃ v, c.valueAt i = some v ∧ matchKeyword token v = .typeExact
  | i, token :: tokens => (∃ v, c.valueAt i = some v ∧ matchKeyword token v ≠ .typeNone) ∧
    c.Fits (i + 1) tokens

/-- The path is that of a leaf that may go, and goes on with its values. -/
def NamesValue (root : Config) (path : List String) (l : Loc) : Prop :=
  ∃ p vs c, path = p ++ vs ∧ Leads root [] p l ∧ root.get? l = some c ∧ c.hasDir = false ∧
    c.Fits 0 vs ∧ c.Accepted

/-- No token that leads to a child is shorter or longer than its name. -/
def InFull (root : Config) (path : List String) : Prop :=
  ∀ (p q : List String) (token : String) (loc : Loc) (c : Config) (s : Step),
    path = p ++ token :: q → Leads root [] p loc → root.get? loc = some c → c.hasDir = true →
    c.Picks token s → s.name = token

/-- What `ParseDelete` leaves of the tree. -/
def Config.deleted (root : Config) (path : List String) : Config :=
  ((parseDelete root path).map (·.tree)).getD root

/-- `Delete` takes the node at the place out of the tree. -/
def Config.Taken (c : Config) (l : Loc) : Prop :=
  ∃ pre s e, l = pre ++ [s] ∧ c.entry = some e ∧ c.drops e s.slot true = true

/-- Of the nodes that `Delete` takes, `LookupByPath` finds the one that the path names and that may
go, and the path names no value. -/
def Meets (root : Config) (path : List String) : Prop :=
  ∀ l c, root.get? l = some c → c.Taken l →
    (Reached root [] path l ↔ Leads root [] path l ∧ c.Accepted) ∧ ¬ NamesValue root path l

section

variable {root c : Config} {loc l l' : Loc} {token : String} {path : List String}

/-! ## LookupByPath -/

theorem lookupFrom_iff : Config.lookupFrom root loc path = some l ↔ Reached root loc path l := by
  induction path generalizing loc with
  | nil =>
    rw [Config.lookupFrom]
    constructor
    · rintro ⟨⟩
      exact .here _
    · rintro ⟨⟩
      rfl
  | cons token path ih =>
    rw [Config.lookupFrom]
    cases hg : root.get? loc with
    | none =>
      simp only [Option.bind_none, Config.lookupKey, hg]
      constructor
      · intro h
        cases h
      · intro h
        cases h with
        | config hg' | key hg' | nextKey hg' =>
          rw [hg] at hg'
          cases hg'
    | some c =>
      rw [Option.bind_some]
      cases hl : c.lookup token with
      | some d =>
        rw [ih]
        constructor
        · exact fun h => .config hg (by rw [hl]; rfl) h
        · intro h
          cases h with
          | config _ _ h => exact h
          | key hg' hl' | nextKey hg' hl' =>
            obtain rfl := Option.some.inj (hg.symm.trans hg')
            rw [hl] at hl'
            cases hl'
      | none =>
        simp only [Config.lookupKey, hg]
        cases hk : c.isKeyConfig with
        | false =>
          cases hs : c.lookupKeyShallow token with
          | none =>
            simp only [Bool.false_eq_true, if_false]
            constructor
            · intro h
              cases h
            · intro h
              cases h with
              | config hg' hl' =>
                obtain rfl := Option.some.inj (hg.symm.trans hg')
                rw [hl] at hl'
                cases hl'
              | key hg' _ _ hs' =>
                obtain rfl := Option.some.inj (hg.symm.trans hg')
                rw [hs] at hs'
                cases hs'
              | nextKey hg' _ hk' =>
                obtain rfl := Option.some.inj (hg.symm.trans hg')
                rw [hk] at hk'
                cases hk'
          | some d =>
            simp only [Bool.false_eq_true, if_false]
            rw [ih]
            constructor
            · exact fun h => .key hg hl hk (by rw [hs]; rfl) h
            · intro h
              cases h with
              | config hg' hl' =>
                obtain rfl := Option.some.inj (hg.symm.trans hg')
                rw [hl] at hl'
                cases hl'
              | key _ _ _ _ h => exact h
              | nextKey hg' _ hk' =>
                obtain rfl := Option.some.inj (hg.symm.trans hg')
                rw [hk] at hk'
                cases hk'
        | true =>
          simp only [if_true]
          constructor
          · intro h
            cases hp : root.get? loc.dropLast with
            | none =>
              rw [hp] at h
              cases h
            | some parent =>
              rw [hp] at h
              cases hf : parent.keys.find? fun p => (p.lookupKeyShallow token).isSome with
              | none =>
                simp only [hf] at h
                cases h
              | some p =>
                simp only [hf] at h
                exact .nextKey hg hl hk hp hf (ih.mp h)
          · intro h
            cases h with
            | config hg' hl' =>
              obtain rfl := Option.some.inj (hg.symm.trans hg')
              rw [hl] at hl'
              cases hl'
            | key hg' _ hk' =>
              obtain rfl := Option.some.inj (hg.symm.trans hg')
              rw [hk] at hk'
              cases hk'
            | nextKey _ _ _ hp hf h =>
              simp only [hp, hf]
              exact ih.mpr h

theorem lookupByPath_iff : root.lookupByPath path = some l ↔ Reached root [] path l := lookupFrom_iff

theorem Reached.unique (h : Reached root loc path l) (h' : Reached root loc path l') : l = l' :=
  Option.some.inj ((lookupFrom_iff.mpr h).symm.trans (lookupFrom_iff.mpr h'))

/-- Each token leads one step down to a node, also past another key of the list. -/
theorem Reached.isSome_length (ht : Typed env (.root ent) root) (h : Reached root loc path l)
    (hl : (root.get? loc).isSome) :
    (root.get? l).isSome ∧ l.length = loc.length + path.length := by
  have hsnoc {loc : Loc} {c : Config} {s : Step} (hg : root.get? loc = some c)
      (hs : (c.child? s).isSome) : (root.get? (loc ++ [s])).isSome := by
    rw [Config.get?_append, hg, Option.bind_some, Config.get?_single]
    exact hs
  induction h with
  | here => exact ⟨hl, rfl⟩
  | config hg hs _ ih | key hg _ _ hs _ ih =>
    obtain ⟨hsome, hlen⟩ := ih (hsnoc hg hs)
    refine ⟨hsome, hlen.trans ?_⟩
    simp only [List.length_append, List.length_cons, List.length_nil]
    omega
  | @nextKey loc l c parent p token path hg _ hk hp hf _ ih =>
    obtain ⟨hkeys, -⟩ : c.keys ≠ [] ∧ c.keyConfig = true := by
      simpa [Config.isKeyConfig] using hk
    -- The root has no keys.
    have hloc : loc ≠ [] := by
      rintro rfl
      obtain rfl := Option.some.inj hg
      exact hkeys (ht.keys_nil (by simp [Cursor.root]))
    obtain ⟨cur, hw, -⟩ := ht.walk_of_get hp
    have hmem := List.mem_of_find?_eq_some hf
    have hchild : parent.child? ⟨.keys, p.name⟩ = some p :=
      Keyed.get_of_mem ((ht.of_walk hw).nodup .keys) hmem
    have hpk : root.get? (loc.dropLast ++ [⟨.keys, p.name⟩]) = some p := by
      rw [Config.get?_append, hp, Option.bind_some, Config.get?_single, hchild]
    have hsome := hsnoc hpk (s := ⟨.keys, token⟩)
      (show (p.lookupKeyShallow token).isSome from by simpa using List.find?_some hf)
    rw [List.append_assoc] at hsome
    obtain ⟨hsome, hlen⟩ := ih hsome
    refine ⟨hsome, hlen.trans ?_⟩
    have hpos := List.length_pos_iff.mpr hloc
    simp only [List.length_append, List.length_cons, List.length_nil, List.length_dropLast]
    omega

/-! ## ParseDelete -/

theorem Leads.length (h : Leads root loc path l) : l.length = loc.length + path.length := by
  induction h with
  | here => rfl
  | child _ _ _ _ ih =>
    rw [ih]
    simp only [List.length_append, List.length_cons, List.length_nil]
    omega

/-- Keywords lead to one place, and beyond a leaf to none. -/
theorem Leads.append {p vs : List String} (h : Leads root loc p l) (h' : Leads root loc (p ++ vs) l') :
    Leads root l vs l' := by
  induction h with
  | here => exact h'
  | child hg hd hx _ ih =>
    cases h' with
    | child hg' _ hx' h' =>
      obtain rfl := Option.some.inj (hg.symm.trans hg')
      obtain rfl := hx.unique hx'
      exact ih h'

theorem Leads.unique (h : Leads root loc path l) (h' : Leads root loc path l') : l = l' := by
  have : Leads root l [] l' := h.append (by rwa [List.append_nil])
  cases this
  rfl

/-- What an accepted path consists of, seen from a place. -/
def Accepts (root : Config) (loc : Loc) (index : ℕ) (path : List String) (l : Loc) : Prop :=
  ∃ p vs c, path = p ++ vs ∧ Leads root loc p l ∧ root.get? l = some c ∧ c.Accepted ∧
    (vs = [] ∧ (∃ token s, p.getLast? = some token ∧ l.getLast? = some s ∧
        matchKeyword token s.name = .typeExact) ∨
      c.hasDir = false ∧ c.Fits index vs)

theorem parseDeleteFrom_accepts {s : YMatchState} {r : ParseResult} (hc : s.complete = false)
    (h : parseDeleteFrom path root loc s = some r) (hs : r.code = .parseSuccess) :
    ∃ l, Accepts root loc s.index path l ∧ r.tree = delete root l true := by
  induction path generalizing loc s with
  | nil => cases h
  | cons str cmds ih =>
    obtain ⟨hcount, l, hl, hrest⟩ := parseDeleteFrom_success hc h hs
    cases hg : root.get? loc with
    | none =>
      rw [matchConfigAt_none hg] at hcount
      cases hcount
    | some c =>
      cases hd : c.hasDir with
      | true =>
        obtain ⟨hmc, hindex, hone, hpick⟩ := matchConfigAt_dir str hg hd
          (s := { s with best := .typeNone, count := 0, comps := [] }) hc rfl rfl
        obtain ⟨t, ht⟩ := hone hcount
        obtain ⟨-, hconf, hbest⟩ := hpick t ht
        obtain rfl : l = loc ++ [t] := Option.some.inj (hl.symm.trans hconf)
        rcases hrest with ⟨rfl, hexact, ⟨d, hd', hacc⟩, htree⟩ | ⟨-, hrest⟩
        · exact ⟨_, ⟨[str], [], d, rfl, .child hg hd ht (.here _), hd', hacc,
            .inl ⟨rfl, str, t, rfl, List.getLast?_concat, hbest.symm.trans hexact⟩⟩, htree⟩
        · obtain ⟨l', ⟨p, vs, d, rfl, hleads, hd', hacc, hend⟩, htree⟩ := ih hmc hrest
          refine ⟨l', ⟨str :: p, vs, d, rfl, .child hg hd ht hleads, hd', hacc, ?_⟩, htree⟩
          rcases hend with ⟨rfl, token, x, hp, hlx, hm⟩ | hfits
          · exact .inl ⟨rfl, token, x, by rw [List.getLast?_cons, hp]; rfl, hlx, hm⟩
          · rw [hindex] at hfits
            exact .inr hfits
      | false =>
        obtain ⟨hmc, hindex, hone, hval⟩ := matchConfigAt_leaf str hg hd
          (s := { s with best := .typeNone, count := 0, comps := [] }) hc rfl rfl
        obtain ⟨v, hv, hne⟩ := hone hcount
        obtain ⟨-, hconf, hbest⟩ := hval v hv hne
        obtain rfl : l = loc := Option.some.inj (hl.symm.trans hconf)
        rcases hrest with ⟨rfl, hexact, ⟨d, hd', hacc⟩, htree⟩ | ⟨hcmds, hrest⟩
        · obtain rfl := Option.some.inj (hg.symm.trans hd')
          exact ⟨l, ⟨[], [str], c, rfl, .here l, hg, hacc, .inr ⟨hd, v, hv, hbest.symm.trans hexact⟩⟩,
            htree⟩
        · obtain ⟨l', ⟨p, vs, d, rfl, hleads, hd', hacc, hend⟩, htree⟩ := ih hmc hrest
          -- No keyword leads on from a leaf.
          cases hleads with
          | child hg' hd'' =>
            obtain rfl := Option.some.inj (hg.symm.trans hg')
            rw [hd] at hd''
            cases hd''
          | here =>
            obtain rfl := Option.some.inj (hg.symm.trans hd')
            rcases hend with ⟨rfl, token, x, hp, -⟩ | ⟨-, hfits⟩
            · cases hp
            · refine ⟨l, ⟨[], str :: vs, c, rfl, .here l, hg, hacc, .inr ⟨hd, ?_⟩⟩, htree⟩
              obtain ⟨v', vs, rfl⟩ := List.exists_cons_of_ne_nil hcmds
              rw [hindex] at hfits
              exact ⟨⟨v, hv, hne⟩, hfits⟩

theorem parseDeleteFrom_of_accepts {s : YMatchState} (hc : s.complete = false)
    (h : Accepts root loc s.index path l) : ∃ r, parseDeleteFrom path root loc s = some r ∧
      r.code = .parseSuccess ∧ r.tree = delete root l true := by
  obtain ⟨p, vs, c, rfl, hleads, hg, hacc, hend⟩ := h
  induction hleads generalizing s with
  | here loc =>
    rcases hend with ⟨rfl, token, x, hp, -⟩ | ⟨hd, hfits⟩
    · cases hp
    · rw [List.nil_append]
      generalize hi : s.index = i at hfits
      induction vs generalizing s i with
      | nil => cases hfits
      | cons token vs ih =>
        obtain ⟨hmc, hindex, -, hval⟩ := matchConfigAt_leaf token hg hd
          (s := { s with best := .typeNone, count := 0, comps := [] }) hc rfl rfl
        cases vs with
        | nil =>
          obtain ⟨v, hv, hm⟩ := hfits
          have hat := hval v (hi ▸ hv) (by rw [hm]; simp)
          rw [hm] at hat
          exact parseDeleteFrom_last hc hat hg hacc
        | cons token' vs =>
          obtain ⟨⟨v, hv, hm⟩, hfits⟩ := hfits
          obtain ⟨hcount, hconf, -⟩ := hval v (hi ▸ hv) hm
          rw [parseDeleteFrom_more ⟨hcount, hconf⟩ (List.cons_ne_nil _ _)]
          exact ih hmc (i + 1) (hindex.trans (congrArg (· + 1) hi)) hfits
  | @child loc l d token p x hg' hd' hx hleads ih =>
    obtain ⟨hmc, hindex, -, hpick⟩ := matchConfigAt_dir token hg' hd'
      (s := { s with best := .typeNone, count := 0, comps := [] }) hc rfl rfl
    obtain ⟨hcount, hconf, hbest⟩ := hpick x hx
    cases hp : p ++ vs with
    | nil =>
      obtain ⟨rfl, rfl⟩ := List.append_eq_nil_iff.mp hp
      cases hleads
      rcases hend with ⟨-, token', y, hq, hl, hm⟩ | ⟨-, hfits⟩
      · rw [List.getLast?_concat] at hl
        cases hq
        cases hl
        exact parseDeleteFrom_last hc ⟨hcount, hconf, hbest.trans hm⟩ hg hacc
      · cases hfits
    | cons token' rest =>
      rw [List.cons_append, parseDeleteFrom_more ⟨hcount, hconf⟩ (by rw [hp]; simp)]
      refine ih hmc hg ?_
      rcases hend with ⟨rfl, token'', y, hq, hl, hm⟩ | ⟨hd, hfits⟩
      · rw [List.append_nil] at hp
        rw [hp, List.getLast?_cons_cons] at hq
        exact .inl ⟨rfl, token'', y, by rw [hp]; exact hq, hl, hm⟩
      · exact .inr ⟨hd, by rw [hindex]; exact hfits⟩

theorem Leads.last (h : Leads root loc (path ++ [token]) l) : ∃ l₀ c s, Leads root loc path l₀ ∧
    root.get? l₀ = some c ∧ c.hasDir = true ∧ c.Picks token s ∧ l = l₀ ++ [s] := by
  induction path generalizing loc with
  | nil =>
    cases h with
    | child hg hd hs h =>
      cases h
      exact ⟨_, _, _, .here _, hg, hd, hs, rfl⟩
  | cons token' path ih =>
    cases h with
    | child hg hd hs h =>
      obtain ⟨l₀, c, s, h₀, hrest⟩ := ih h
      exact ⟨l₀, c, s, .child hg hd hs h₀, hrest⟩

/-- The path names the node, or a value of it, and the node may go. -/
def NamesNode (root : Config) (path : List String) (l : Loc) : Prop :=
  (Leads root [] path l ∧ ∃ c, root.get? l = some c ∧ c.Accepted) ∨ NamesValue root path l

theorem accepts_iff (hx : InFull root path) (hne : path ≠ []) :
    Accepts root [] 0 path l ↔ NamesNode root path l := by
  constructor
  · rintro ⟨p, vs, c, rfl, hleads, hg, hacc, ⟨rfl, -⟩ | ⟨hd, hfits⟩⟩
    · rw [List.append_nil]
      exact .inl ⟨hleads, c, hg, hacc⟩
    · exact .inr ⟨p, vs, c, rfl, hleads, hg, hd, hfits, hacc⟩
  · rintro (⟨hleads, c, hg, hacc⟩ | ⟨p, vs, c, rfl, hleads, hg, hd, hfits, hacc⟩)
    · refine ⟨path, [], c, (List.append_nil _).symm, hleads, hg, hacc, .inl ⟨rfl, ?_⟩⟩
      obtain h0 | ⟨q, token, hq⟩ := List.eq_nil_or_concat path
      · exact absurd h0 hne
      · rw [List.concat_eq_append] at hq
        subst hq
        obtain ⟨l₀, d, s, h₀, hg₀, hd₀, hs, rfl⟩ := hleads.last
        have hname := hx q [] token l₀ d s rfl h₀ hg₀ hd₀ hs
        exact ⟨token, s, List.getLast?_concat, List.getLast?_concat,
          by rw [hname]; exact matchKeyword_self token⟩
    · exact ⟨p, vs, c, rfl, hleads, hg, hacc, .inr ⟨hd, hfits⟩⟩

/-- A path names one node. -/
theorem NamesNode.unique (h : NamesNode root path l) (h' : NamesNode root path l') : l = l' := by
  -- Keywords lead as far as there are tokens, or to a leaf.
  have hends {l : Loc} (h : NamesNode root path l) : ∃ p vs, path = p ++ vs ∧ Leads root [] p l ∧
      (vs = [] ∨ ∃ c, root.get? l = some c ∧ c.hasDir = false) := by
    rcases h with ⟨h, -⟩ | ⟨p, vs, c, rfl, h, hg, hd, -⟩
    · exact ⟨path, [], (List.append_nil _).symm, h, .inl rfl⟩
    · exact ⟨p, vs, rfl, h, .inr ⟨c, hg, hd⟩⟩
  have hlonger {l l' : Loc} {p x : List String} (h : Leads root [] p l)
      (h' : Leads root [] (p ++ x) l') (hend : x = [] ∨ ∃ c, root.get? l = some c ∧ c.hasDir = false) :
      l = l' := by
    rcases hend with rfl | ⟨c, hg, hd⟩
    · rw [List.append_nil] at h'
      exact h.unique h'
    · cases h.append h' with
      | here => rfl
      | child hg' hd' =>
        obtain rfl := Option.some.inj (hg.symm.trans hg')
        rw [hd] at hd'
        cases hd'
  obtain ⟨p, vs, hp, hl, hend⟩ := hends h
  obtain ⟨p', vs', hp', hl', hend'⟩ := hends h'
  rcases List.append_eq_append_iff.mp (hp.symm.trans hp') with ⟨x, rfl, rfl⟩ | ⟨x, rfl, rfl⟩
  · refine hlonger hl hl' (hend.imp_left fun h => ?_)
    exact (List.append_eq_nil_iff.mp h).1
  · refine (hlonger hl' hl (hend'.imp_left fun h => ?_)).symm
    exact (List.append_eq_nil_iff.mp h).1

end

/-! ## The trees they leave -/

theorem Config.hasDir_of_child {c d : Config} {s : Step} (h : c.child? s = some d) :
    c.hasDir = true := by
  have := Config.isEmpty_of_child h
  rw [Config.isEmpty, Bool.and_eq_false_iff] at this
  rcases this with h | h <;> simp [Config.hasDir, h]

section

variable {root c : Config} {l : Loc} {path : List String} (hf : FindsRegular env)
  (hall : ent.All Entry.Regular) (h : Edited env ent root)

include hf hall h

theorem delete_taken (hg : root.get? l = some c) (ht : c.Taken l) :
    Cut ent root l (delete root l true) := by
  obtain ⟨pre, s, e, rfl, he, hd⟩ := ht
  obtain ⟨cur, hw, -⟩ := h.typed.walk_of_get hg
  exact delete_cut hf hall h.typed h.flagged hw he hd

theorem delete_not_taken (hg : root.get? l = some c) (ht : ¬ c.Taken l) :
    delete root l true = root := by
  obtain rfl | ⟨pre, s, rfl⟩ := List.eq_nil_or_concat l
  · rfl
  · rw [List.concat_eq_append] at hg ht ⊢
    obtain ⟨cur, hw, -⟩ := h.typed.walk_of_get hg
    obtain ⟨e, he, hkind⟩ := h.typed.kind_of_walk hf hall hw
    refine delete_untaken hg he ?_ ?_
    · by_contra hd
      exact ht ⟨pre, s, e, rfl, he, (Bool.not_eq_false _).mp hd⟩
    · cases hs : s.slot with
      | configs => simp [clears]
      | keys =>
        rw [hs] at hkind
        simp [clears, hkind.2]

/-- What `YangConfigPull` does. -/
theorem pull_cases : (∃ l c, Reached root [] path l ∧ root.get? l = some c ∧ c.Taken l ∧
      root.pull path = delete root l true) ∨
    root.pull path = root ∧ ∀ l c, root.get? l = some c → c.Taken l → ¬ Reached root [] path l := by
  rw [Config.pull]
  cases hl : root.lookupByPath path with
  | none =>
    refine .inr ⟨rfl, fun l c _ _ hr => ?_⟩
    rw [lookupByPath_iff.mpr hr] at hl
    cases hl
  | some l =>
    have hr := lookupByPath_iff.mp hl
    obtain ⟨c, hg⟩ := Option.isSome_iff_exists.mp (hr.isSome_length h.typed rfl).1
    by_cases ht : c.Taken l
    · exact .inl ⟨l, c, hr, hg, ht, rfl⟩
    · refine .inr ⟨delete_not_taken hf hall h hg ht, fun l' c' hg' ht' hr' => ?_⟩
      obtain rfl := hr.unique hr'
      obtain rfl := Option.some.inj (hg.symm.trans hg')
      exact ht ht'

/-- What `ParseDelete` does. -/
theorem deleted_cases (hx : InFull root path) :
    (∃ l c, NamesNode root path l ∧ root.get? l = some c ∧ c.Taken l ∧
      root.deleted path = delete root l true) ∨
    root.deleted path = root ∧ ∀ l c, root.get? l = some c → c.Taken l → ¬ NamesNode root path l := by
  by_cases hne : path = []
  · subst hne
    refine .inr ⟨rfl, fun l c hg ht hn => ?_⟩
    rcases hn with ⟨hleads, -⟩ | ⟨p, vs, _, hp, -, -, -, hfits, -⟩
    · cases hleads
      obtain ⟨pre, s, -, hl, -⟩ := ht
      simp at hl
    · obtain ⟨rfl, rfl⟩ := List.append_eq_nil_iff.mp hp.symm
      exact hfits
  · by_cases hn : ∃ l, NamesNode root path l
    · obtain ⟨l, hn⟩ := hn
      obtain ⟨r, hr, -, htree⟩ :=
        @parseDeleteFrom_of_accepts root [] l path {} rfl ((accepts_iff hx hne).mpr hn)
      have heq : root.deleted path = delete root l true := by
        rw [Config.deleted, parseDelete, hr, Option.map_some, Option.getD_some, htree]
      obtain ⟨c, hg⟩ : ∃ c, root.get? l = some c := by
        rcases hn with ⟨-, c, hg, -⟩ | ⟨-, -, c, -, -, hg, -⟩ <;> exact ⟨c, hg⟩
      by_cases ht : c.Taken l
      · exact .inl ⟨l, c, hn, hg, ht, heq⟩
      · refine .inr ⟨heq.trans (delete_not_taken hf hall h hg ht), fun l' c' hg' ht' hn' => ?_⟩
        obtain rfl := hn.unique hn'
        obtain rfl := Option.some.inj (hg.symm.trans hg')
        exact ht ht'
    · refine .inr ⟨?_, fun l c _ _ hn' => hn ⟨l, hn'⟩⟩
      rw [Config.deleted]
      cases hr : parseDelete root path with
      | none => rfl
      | some r =>
        rcases parseDelete_cases hr with ⟨-, htree⟩ | ⟨hs, -⟩
        · exact htree
        · obtain ⟨l, hacc, -⟩ := parseDeleteFrom_accepts (s := {}) rfl hr hs
          exact absurd ⟨l, (accepts_iff hx hne).mp hacc⟩ hn

/-- With full names, both leave the same trees just if `LookupByPath` finds what the path names and
`ParseDelete` lets go, where that is a node that `Delete` takes. -/
theorem pull_agrees_iff (hx : InFull root path) :
    ({ active := root, candidate := root } : Trees).yangConfigPull path =
      { active := root.deleted path, candidate := root.deleted path } ↔ Meets root path := by
  have htrees : ({ active := root, candidate := root } : Trees).yangConfigPull path =
      { active := root.deleted path, candidate := root.deleted path } ↔
      root.pull path = root.deleted path :=
    ⟨fun h => congrArg Trees.active h, fun h => by rw [Trees.yangConfigPull, h]⟩
  rw [htrees]
  have hcut {l : Loc} {c : Config} (hg : root.get? l = some c) (ht : c.Taken l) :=
    delete_taken hf hall h hg ht
  have hdiffers {l : Loc} {c : Config} (hg : root.get? l = some c) (ht : c.Taken l) :
      delete root l true ≠ root := by
    intro heq
    have hgone := (hcut hg ht).gone
    rw [heq, hg] at hgone
    cases hgone
  rcases pull_cases hf hall h with ⟨l, c, hr, hg, ht, hpull⟩ | ⟨hpull, hnr⟩ <;>
    rcases deleted_cases hf hall h hx with ⟨l', c', hn, hg', ht', hdel⟩ | ⟨hdel, hnn⟩ <;>
    rw [hpull, hdel]
  · -- Both take a node: the trees are the same just if it is the same node.
    have hlen := (hr.isSome_length h.typed rfl).2
    have hnv (hv : NamesValue root path l') (heq : delete root l true = delete root l' true) :
        False := by
      obtain ⟨p, vs, d, rfl, hl, hd, hdir, hfits, -⟩ := hv
      obtain rfl := Option.some.inj (hg'.symm.trans hd)
      have hvs : vs ≠ [] := by
        rintro rfl
        exact hfits
      have hpos := List.length_pos_iff.mpr hvs
      have hlen' := hl.length
      simp only [List.length_append, List.length_nil] at hlen hlen'
      rcases (hcut hg ht).comparable (by rw [hg']; rfl) (heq ▸ (hcut hg' ht').gone) with
        ⟨x, rfl⟩ | hpre
      · cases x with
        | nil =>
          rw [List.append_nil] at hlen
          omega
        | cons s x =>
          rw [Config.get?_append, hg', Option.bind_some, Config.get?_cons] at hg
          obtain ⟨b, hb, -⟩ := Option.bind_eq_some_iff.mp hg
          rw [Config.hasDir_of_child hb] at hdir
          cases hdir
      · have := hpre.length_le
        omega
    constructor
    · intro heq
      rcases hn with ⟨hl, d, hd, hacc⟩ | hv
      · have hll : l = l' := by
          have hlen' := hl.length
          rcases (hcut hg ht).comparable (by rw [hg']; rfl) (heq ▸ (hcut hg' ht').gone) with
            hpre | hpre
          · exact (hpre.eq_of_length (by omega)).symm
          · exact hpre.eq_of_length (by omega)
        subst hll
        obtain rfl := Option.some.inj (hg.symm.trans hd)
        refine fun m b hm _ => ⟨⟨fun hrm => ?_, fun hlm => ?_⟩, fun hvm => ?_⟩
        · obtain rfl := hr.unique hrm
          obtain rfl := Option.some.inj (hg.symm.trans hm)
          exact ⟨hl, hacc⟩
        · rw [← hl.unique hlm.1]
          exact hr
        · obtain rfl := NamesNode.unique (.inl ⟨hl, c, hg, hacc⟩) (.inr hvm)
          exact hnv hvm rfl
      · exact absurd heq (hnv hv)
    · intro hm
      rcases hn with ⟨hl, d, hd, hacc⟩ | hv
      · obtain rfl := Option.some.inj (hg'.symm.trans hd)
        rw [hr.unique ((hm l' c' hg' ht').1.mpr ⟨hl, hacc⟩)]
      · exact absurd hv (hm l' c' hg' ht').2
  · refine ⟨fun heq => absurd heq (hdiffers hg ht), fun hm => ?_⟩
    obtain ⟨hl, hacc⟩ := (hm l c hg ht).1.mp hr
    exact absurd (.inl ⟨hl, c, hg, hacc⟩) (hnn l c hg ht)
  · refine ⟨fun heq => absurd heq.symm (hdiffers hg' ht'), fun hm => ?_⟩
    rcases hn with ⟨hl, d, hd, hacc⟩ | hv
    · obtain rfl := Option.some.inj (hg'.symm.trans hd)
      exact absurd ((hm l' c' hg' ht').1.mpr ⟨hl, hacc⟩) (hnr l' c' hg' ht')
    · exact absurd hv (hm l' c' hg' ht').2
  · refine ⟨fun _ l c hg ht => ⟨⟨fun hr => absurd hr (hnr l c hg ht), fun hn => ?_⟩, fun hv => ?_⟩,
      fun _ => rfl⟩
    · exact absurd (.inl ⟨hn.1, c, hg, hn.2⟩) (hnn l c hg ht)
    · exact hnn l c hg ht (.inr hv)

end

section

variable {root : Config} {loc l : Loc} {path : List String}

theorem Leads.prefix_loc (h : Leads root loc path l) : loc <+: l := by
  induction h with
  | here => exact List.prefix_rfl
  | child _ _ _ _ ih => exact (List.prefix_append _ _).trans ih

/-- Keywords that are the names of the steps are no abbreviations. -/
theorem Leads.inFull (h : Leads root [] path l) (hn : l.map (·.name) = path) : InFull root path := by
  intro p q token loc c s hp hleads hg hd hs
  have hrest := hleads.append (hp ▸ h)
  cases hrest with
  | child hg' _ hs' hrest =>
    obtain rfl := Option.some.inj (hg.symm.trans hg')
    obtain rfl := hs.unique hs'
    obtain ⟨x, rfl⟩ := hrest.prefix_loc
    rw [hp, List.map_append, List.map_append, List.append_assoc] at hn
    obtain ⟨-, hx⟩ := List.append_inj hn (by simp [hleads.length])
    exact (List.cons.inj hx).1

end

/-- The place of a list. -/
def routeLoc : Loc := [⟨.configs, "routes"⟩, ⟨.configs, "route"⟩]

/-- A tree with one entry in a list, and the names that lead to the list. -/
theorem routes_leads : ∃ s, parse .ascii routesSchema {} ["routes", "route", "a", "x"] = some s ∧
    Leads s.tree [] ["routes", "route"] routeLoc := by
  obtain ⟨s, hs, hroot⟩ := Option.map_eq_some_iff.mp (show
    (parse .ascii routesSchema {} ["routes", "route", "a", "x"]).map
      (fun s => (s.tree.hasDir, s.tree.steps)) = some (true, [⟨.configs, "routes"⟩]) by decide +kernel)
  obtain ⟨s', hs', hroutes⟩ := Option.map_eq_some_iff.mp (show
    (parse .ascii routesSchema {} ["routes", "route", "a", "x"]).map
      (fun s => (s.tree.get? [⟨.configs, "routes"⟩]).map fun c => (c.hasDir, c.steps)) =
        some (some (true, [⟨.configs, "route"⟩])) by decide +kernel)
  obtain rfl := Option.some.inj (hs.symm.trans hs')
  obtain ⟨c, hc, hx⟩ := Option.map_eq_some_iff.mp hroutes
  obtain ⟨hrd, hrs⟩ := Prod.mk.inj hroot
  obtain ⟨hcd, hcs⟩ := Prod.mk.inj hx
  refine ⟨s, hs, .child rfl hrd (s := ⟨.configs, "routes"⟩) ⟨by decide, [], [], hrs, by simp⟩ ?_⟩
  exact .child hc hcd (s := ⟨.configs, "route"⟩) ⟨by decide, [], [], hcs, by simp⟩ (.here _)

/-- The list is found, but it is no node for `ParseDelete`. -/
theorem pull_agrees_iff_route : ∃ s,
    parse .ascii routesSchema {} ["routes", "route", "a", "x"] = some s ∧
    (({ active := s.tree, candidate := s.tree } : Trees).yangConfigPull ["routes", "route"] =
      { active := s.tree.deleted ["routes", "route"]
        candidate := s.tree.deleted ["routes", "route"] } ↔ Meets s.tree ["routes", "route"]) ∧
    ¬ Meets s.tree ["routes", "route"] := by
  obtain ⟨s, hs, hleads⟩ := routes_leads
  have hagrees := @pull_agrees_iff .ascii routesSchema s.tree ["routes", "route"]
    (fun _ _ _ h => by cases h) (by decide) (.parse .empty hs) (hleads.inFull rfl)
  refine ⟨s, hs, hagrees, fun hmeets => ?_⟩
  have hx : (parse .ascii routesSchema {} ["routes", "route", "a", "x"]).map (fun s =>
      ((s.tree.pull ["routes", "route"]).steps, (s.tree.deleted ["routes", "route"]).steps)) =
      some ([], [⟨.configs, "routes"⟩]) := by decide +kernel
  rw [hs] at hx
  obtain ⟨hpull, hdeleted⟩ := Prod.mk.inj (Option.some.inj hx)
  have heq := congrArg Trees.active (hagrees.mpr hmeets)
  rw [show s.tree.pull ["routes", "route"] = s.tree.deleted ["routes", "route"] from heq, hdeleted] at hpull
  cases hpull

/-- A list is no node for `ParseDelete`, but `YangConfigPull` takes all its entries. -/
theorem pull_deletes_list : ∃ s,
    parse .ascii routesSchema {} ["routes", "route", "a", "x"] = some s ∧ s.code = .parseSuccess ∧
    InFull s.tree ["routes", "route"] ∧
    (parseDelete s.tree ["routes", "route"]).map (·.code) = some .parseIncomplete ∧
    ({ active := s.tree, candidate := s.tree } : Trees).yangConfigPull ["routes", "route"] ≠
      { active := s.tree, candidate := s.tree } := by
  obtain ⟨s, hs, hleads⟩ := routes_leads
  have hx : (parse .ascii routesSchema {} ["routes", "route", "a", "x"]).map (fun s =>
      (s.code, (parseDelete s.tree ["routes", "route"]).map (·.code),
        (s.tree.pull ["routes", "route"]).steps, s.tree.steps)) =
      some (.parseSuccess, some .parseIncomplete, [], [⟨.configs, "routes"⟩]) := by decide +kernel
  rw [hs] at hx
  simp only [Option.map_some, Option.some.injEq, Prod.mk.injEq] at hx
  obtain ⟨hcode, hdel, hpull, hsteps⟩ := hx
  refine ⟨s, hs, hcode, hleads.inFull rfl, hdel, fun heq => ?_⟩
  have heq := congrArg Trees.active heq
  rw [show s.tree.pull ["routes", "route"] = s.tree from heq, hsteps] at hpull
  cases hpull

end OpenConfigd
