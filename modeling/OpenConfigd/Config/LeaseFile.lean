import OpenConfigd.Config.LoadSafe
import OpenConfigd.Lib.Latest

/-!
# Lease files

Files of statements and blocks, as `LoadLease` gets them, and the leases in them: those of
the blocks with the head `lease <address>` (`leaseBlocks`), and what the reader takes for
leases (`readings`). The reader keeps a lease until the next one starts, and words until
the next `;`, whatever braces come between them: it cuts the file at each identifier after
the word `lease`, and all that follows up to the next cut counts for the lease. In a file
whose other text has no statement the reader looks for and leaves no word behind, both are
the same (`tidy_cut`).
-/

namespace OpenConfigd

/-! ## Files -/

/-- A word. -/
inductive LeaseWord where
  | identifier (val : List Char)
  | string (val : List Char)
  deriving DecidableEq, Repr

/-- The item of a word. -/
def LeaseWord.item : LeaseWord → Item
  | .identifier val => .itemIdentifier val
  | .string val => .itemString val

/-- A word as it stands in the file. -/
def LeaseWord.text : LeaseWord → String
  | .identifier val | .string val => String.ofList val

/-- A statement, of one word or more, or a block. -/
inductive LeaseElement where
  | statement (word : LeaseWord) (words : List LeaseWord)
  | block (head : List LeaseWord) (body : List LeaseElement)

mutual

/-- The items of an element. -/
def LeaseElement.items : LeaseElement → List Item
  | .statement word words => (word :: words).map LeaseWord.item ++ [.itemSemiColon]
  | .block head body =>
    head.map LeaseWord.item ++ .itemLeftBrace :: leaseItems body ++ [.itemRightBrace]

/-- The items of elements. -/
def leaseItems : List LeaseElement → List Item
  | [] => []
  | e :: es => e.items ++ leaseItems es

end

/-- The items of a file. -/
def leaseFileItems (file : List LeaseElement) : List Item := leaseItems file ++ [.itemEOF]

/-- The items without white space and comments. -/
def solidItems (items : List Item) : List Item := items.filter (· ≠ .itemWhiteSpace)

/-- The bytes are a text of the file. -/
def IsLeaseFile (env : Env) (input : List UInt8) (file : List LeaseElement) : Prop :=
  endsInComment env input = false ∧ solidItems (tokens env input) = leaseFileItems file

theorem LeaseWord.item_ne (w : LeaseWord) : w.item ≠ .itemError := by
  cases w <;> exact fun h => by cases h

mutual

theorem LeaseElement.items_ne_error : ∀ e : LeaseElement, .itemError ∉ e.items
  | .statement word words => by
    rw [LeaseElement.items, List.mem_append, List.mem_map]
    rintro (⟨w, -, hw⟩ | h)
    · exact w.item_ne hw
    · cases List.mem_singleton.mp h
  | .block head body => by
    rw [LeaseElement.items, List.mem_append, List.mem_append, List.mem_map, List.mem_cons]
    rintro ((⟨w, -, hw⟩ | h | h) | h)
    · exact w.item_ne hw
    · cases h
    · exact leaseItems_ne_error body h
    · cases List.mem_singleton.mp h

theorem leaseItems_ne_error : ∀ es : List LeaseElement, .itemError ∉ leaseItems es
  | [] => List.not_mem_nil
  | e :: es => by
    rw [leaseItems, List.mem_append]
    rintro (h | h)
    · exact e.items_ne_error h
    · exact leaseItems_ne_error es h

end

/-! ## What the file says -/

/-- An address, and the words of the statements for it. -/
structure LeaseCommands where
  address : String
  cmds : List (List String)
  deriving DecidableEq, Repr

/-- The last word of the last statement that starts with the keyword. -/
def lastValue (keyword : String) (cmds : List (List String)) : String :=
  (((cmds.filter fun c => c.head? = some keyword).getLast?).map (·.getLastD "")).getD ""

/-- The lease that the statements give. -/
def LeaseCommands.value (l : LeaseCommands) : LeaseValue :=
  { address := l.address, hardware := lastValue "hardware" l.cmds,
    clientHostName := lastValue "client-hostname" l.cmds }

/-- The words of the statements of a body. -/
def bodyStatements (body : List LeaseElement) : List (List String) :=
  body.filterMap fun
    | .statement word words => some ((word :: words).map LeaseWord.text)
    | .block _ _ => none

/-- A block with the head `lease <address>`. -/
def LeaseElement.lease? : LeaseElement → Option LeaseCommands
  | .block [.identifier keyword, .identifier address] body =>
    if String.ofList keyword = "lease" then some ⟨String.ofList address, bodyStatements body⟩ else none
  | _ => none

/-- The lease blocks of a file. -/
def leaseBlocks (file : List LeaseElement) : List LeaseCommands := file.filterMap LeaseElement.lease?

/-- The map that gives each address the last lease for it. -/
def leasesOf (ls : List LeaseCommands) (address : String) : Option LeaseValue :=
  (Latest.last LeaseCommands.address address ls).map LeaseCommands.value

theorem leasesOf_cons (l : LeaseCommands) (ls : List LeaseCommands) (a : String) :
    leasesOf (l :: ls) a = (leasesOf ls a).or (if l.address = a then some l.value else none) := by
  rw [leasesOf, Latest.last_cons, Option.map_or, leasesOf]
  split <;> rfl

/-- Two lists of leases give the same map. -/
theorem leasesOf_eq_iff (rs ls : List LeaseCommands) : leasesOf rs = leasesOf ls ↔
    (∀ a, (∃ r ∈ rs, r.address = a) ↔ ∃ l ∈ ls, l.address = a) ∧
    ∀ a r l, Latest.last LeaseCommands.address a rs = some r →
      Latest.last LeaseCommands.address a ls = some l →
      ∀ keyword ∈ ["hardware", "client-hostname"], lastValue keyword r.cmds = lastValue keyword l.cmds := by
  have hex (ls : List LeaseCommands) (a : String) :
      (∃ l ∈ ls, l.address = a) ↔ (leasesOf ls a).isSome = true := by
    rw [leasesOf, Option.isSome_map, Option.isSome_iff_ne_none, ne_eq, Latest.last_eq_none]
    push Not
    rfl
  have hvalue {a : String} {r l : LeaseCommands} (hr : Latest.last LeaseCommands.address a rs = some r)
      (hl : Latest.last LeaseCommands.address a ls = some l) : leasesOf rs a = leasesOf ls a ↔
      ∀ keyword ∈ ["hardware", "client-hostname"], lastValue keyword r.cmds = lastValue keyword l.cmds := by
    have haddr : r.address = l.address := (Latest.mem_of_last hr).2.trans (Latest.mem_of_last hl).2.symm
    rw [leasesOf, leasesOf, hr, hl]
    simp [LeaseCommands.value, haddr]
  constructor
  · intro h
    refine ⟨fun a => ?_, fun a r l hr hl => (hvalue hr hl).mp (congrFun h a)⟩
    rw [hex, hex, h]
  · rintro ⟨haddr, hval⟩
    funext a
    have ha := haddr a
    rw [hex, hex] at ha
    cases hr : Latest.last LeaseCommands.address a rs with
    | none =>
      have hrs : leasesOf rs a = none := by rw [leasesOf, hr, Option.map_none]
      rw [hrs] at ha ⊢
      cases hls : leasesOf ls a with
      | none => rfl
      | some v =>
        rw [hls] at ha
        cases ha.mpr rfl
    | some r =>
      cases hl : Latest.last LeaseCommands.address a ls with
      | none =>
        rw [leasesOf, leasesOf, hr, hl] at ha
        cases ha.mp rfl
      | some l => exact (hvalue hr hl).mpr (hval a r l hr hl)

/-! ## What the reader makes of it -/

/-- What stands before the first cut: the words up to each `;`, and whether there is a
`}`. -/
structure Stretch where
  cmds : List (List String) := []
  closed : Bool := false

/-- Items cut at each identifier after the word `lease`: what stands before the first
cut, and the stretches after the cuts that have a `}`, with the identifier. The flag
says whether the identifier before the items is `lease`, the words are those since the
last `;`. -/
def cut : Bool → List String → List Item → Stretch × List LeaseCommands
  | _, _, [] | _, _, .itemEOF :: _ | _, _, .itemError :: _ => ({}, [])
  | keyword, words, .itemWhiteSpace :: items | keyword, words, .itemLeftBrace :: items =>
    cut keyword words items
  | keyword, words, .itemString val :: items => cut keyword (words ++ [String.ofList val]) items
  | keyword, words, .itemIdentifier val :: items =>
    if String.ofList val = "lease" then cut true words items
    else if keyword then
      let r := cut false words items
      ({}, if r.1.closed then ⟨String.ofList val, r.1.cmds⟩ :: r.2 else r.2)
    else cut false (words ++ [String.ofList val]) items
  | keyword, words, .itemRightBrace :: items =>
    let r := cut keyword words items
    ({ r.1 with closed := true }, r.2)
  | keyword, words, .itemSemiColon :: items =>
    let r := cut keyword [] items
    ({ r.1 with cmds := words :: r.1.cmds }, r.2)

/-- The stretches with a `}` that an identifier after `lease` starts. -/
def readings (items : List Item) : List LeaseCommands := (cut false [] items).2

/-! ## Tidy files -/

/-- The words left since the last `;`. -/
def leftWords : List String → List Item → List String
  | words, [] => words
  | words, .itemString val :: items | words, .itemIdentifier val :: items =>
    leftWords (words ++ [String.ofList val]) items
  | _, .itemSemiColon :: items => leftWords [] items
  | words, _ :: items => leftWords words items

/-- The items have no `lease`, and do not end the file. -/
def PlainItems (items : List Item) : Prop :=
  ∀ item ∈ items, item.ends = false ∧ item ≠ .itemIdentifier "lease".toList

/-- The reader does not look for the words. -/
def Unread (cmds : List (List String)) : Prop :=
  ∀ c ∈ cmds, c.head? ≠ some "hardware" ∧ c.head? ≠ some "client-hostname"

/-- A lease block of plain statements, or plain text that has no statement for the reader
and leaves no word. -/
inductive Tidy : LeaseElement → Prop
  | lease {keyword address : List Char} {body : List LeaseElement} :
    String.ofList keyword = "lease" → String.ofList address ≠ "lease" →
    (∀ e ∈ body, ∃ word words, e = .statement word words) → PlainItems (leaseItems body) →
    Tidy (.block [.identifier keyword, .identifier address] body)
  | other {e : LeaseElement} : PlainItems e.items → leftWords [] e.items = [] →
    Unread (cut false [] e.items).1.cmds → e.lease? = none → Tidy e

theorem PlainItems.of_append {xs ys : List Item} (h : PlainItems (xs ++ ys)) : PlainItems xs ∧ PlainItems ys :=
  ⟨fun i hi => h i (List.mem_append_left _ hi), fun i hi => h i (List.mem_append_right _ hi)⟩

theorem ofList_ne_lease {val : List Char} (h : Item.itemIdentifier val ≠ .itemIdentifier "lease".toList) :
    String.ofList val ≠ "lease" := by
  intro he
  rw [← he, String.toList_ofList] at h
  exact h rfl

/-- Plain items are of the stretch they stand in. -/
theorem cut_plain {xs : List Item} (h : PlainItems xs) (words : List String) (rest : List Item) :
    cut false words (xs ++ rest) =
      ({ cmds := (cut false words xs).1.cmds ++ (cut false (leftWords words xs) rest).1.cmds
         closed := (cut false words xs).1.closed || (cut false (leftWords words xs) rest).1.closed },
        (cut false (leftWords words xs) rest).2) := by
  induction xs generalizing words with
  | nil => rfl
  | cons item xs ih =>
    obtain ⟨hends, hlease⟩ := h item List.mem_cons_self
    have ih := ih fun i hi => h i (List.mem_cons_of_mem _ hi)
    rw [List.cons_append]
    cases item with
    | itemError => cases hends
    | itemEOF => cases hends
    | itemWhiteSpace => exact ih words
    | itemLeftBrace => exact ih words
    | itemString val => exact ih _
    | itemIdentifier val =>
      have hne := ofList_ne_lease hlease
      rw [cut, if_neg hne, if_neg Bool.false_ne_true, cut, if_neg hne, if_neg Bool.false_ne_true]
      exact ih _
    | itemRightBrace =>
      rw [cut, ih, cut, leftWords]
      · simp only [Bool.true_or]
      · exact fun val h => by cases h
      · exact fun val h => by cases h
      · exact fun h => by cases h
    | itemSemiColon =>
      rw [cut, ih, cut, leftWords]
      rfl

theorem PlainItems.word {w : LeaseWord} (h : PlainItems [w.item]) (words : List String) (rest : List Item) :
    cut false words (w.item :: rest) = cut false (words ++ [w.text]) rest := by
  cases w with
  | string val => rfl
  | identifier val =>
    have hne := ofList_ne_lease (h _ List.mem_cons_self).2
    rw [LeaseWord.item, cut, if_neg hne, if_neg Bool.false_ne_true]
    rfl

theorem cut_words {ws : List LeaseWord} (h : PlainItems (ws.map LeaseWord.item)) (words : List String)
    (rest : List Item) : cut false words (ws.map LeaseWord.item ++ rest) =
      cut false (words ++ ws.map LeaseWord.text) rest := by
  induction ws generalizing words with
  | nil => rw [List.map_nil, List.map_nil, List.append_nil, List.nil_append]
  | cons w ws ih =>
    obtain ⟨hw, hws⟩ := @PlainItems.of_append [w.item] _ h
    rw [List.map_cons, List.cons_append, hw.word, ih hws, List.map_cons, List.append_assoc,
      List.singleton_append]

/-- A statement is read as it stands when no word is left before it. -/
theorem cut_statements {body : List LeaseElement} (hs : ∀ e ∈ body, ∃ word words, e = .statement word words)
    (hp : PlainItems (leaseItems body)) (rest : List Item) : cut false [] (leaseItems body ++ rest) =
      ({ (cut false [] rest).1 with cmds := bodyStatements body ++ (cut false [] rest).1.cmds },
        (cut false [] rest).2) := by
  induction body with
  | nil => rfl
  | cons e body ih =>
    obtain ⟨he, hbody⟩ := hp.of_append
    obtain ⟨word, words, rfl⟩ := hs e List.mem_cons_self
    have ih := ih (fun e he => hs e (List.mem_cons_of_mem _ he)) hbody
    rw [leaseItems, LeaseElement.items, List.append_assoc, List.append_assoc,
      cut_words he.of_append.1, List.nil_append]
    show cut false _ (.itemSemiColon :: (leaseItems body ++ rest)) = _
    rw [cut, ih]
    rfl

theorem lastValue_append {keyword : String} {xs ys : List (List String)}
    (h : ∀ c ∈ ys, c.head? ≠ some keyword) : lastValue keyword (xs ++ ys) = lastValue keyword xs := by
  have hys : (ys.filter fun c => c.head? = some keyword) = [] :=
    List.filter_eq_nil_iff.mpr fun c hc => by simpa using h c hc
  rw [lastValue, List.filter_append, hys, List.append_nil, lastValue]

theorem LeaseCommands.value_append {address : String} {xs ys : List (List String)} (h : Unread ys) :
    LeaseCommands.value ⟨address, xs ++ ys⟩ = LeaseCommands.value ⟨address, xs⟩ := by
  rw [value, value, lastValue_append fun c hc => (h c hc).1, lastValue_append fun c hc => (h c hc).2]

/-- The readings of a tidy file are its lease blocks. -/
theorem tidy_cut {file : List LeaseElement} (h : ∀ e ∈ file, Tidy e) :
    (cut false [] (leaseFileItems file)).2.map LeaseCommands.value =
      (leaseBlocks file).map LeaseCommands.value ∧
    Unread (cut false [] (leaseFileItems file)).1.cmds := by
  induction file with
  | nil => exact ⟨rfl, fun c hc => by cases hc⟩
  | cons e file ih =>
    obtain ⟨ih₁, ih₂⟩ := ih fun e he => h e (List.mem_cons_of_mem _ he)
    have hitems : leaseFileItems (e :: file) = e.items ++ leaseFileItems file := by
      rw [leaseFileItems, leaseItems, List.append_assoc, leaseFileItems]
    rw [hitems]
    cases h e List.mem_cons_self with
    | @lease keyword address body hk ha hs hp =>
      have hblocks : leaseBlocks (.block [.identifier keyword, .identifier address] body :: file) =
          ⟨String.ofList address, bodyStatements body⟩ :: leaseBlocks file := by
        rw [leaseBlocks, List.filterMap_cons, LeaseElement.lease?, if_pos hk, leaseBlocks]
      have hcut : cut false []
          ((LeaseElement.block [.identifier keyword, .identifier address] body).items ++
            leaseFileItems file) =
          ({}, ⟨String.ofList address,
            bodyStatements body ++ (cut false [] (leaseFileItems file)).1.cmds⟩ ::
            (cut false [] (leaseFileItems file)).2) := by
        rw [LeaseElement.items, List.append_assoc, List.append_assoc]
        show cut false [] (.itemIdentifier keyword :: .itemIdentifier address ::
          .itemLeftBrace :: (leaseItems body ++ .itemRightBrace :: leaseFileItems file)) = _
        rw [cut, if_pos hk, cut, if_neg ha, if_pos rfl, cut,
          cut_statements hs hp, OpenConfigd.cut]
        rfl
      rw [hcut, hblocks, List.map_cons, List.map_cons, ih₁, LeaseCommands.value_append ih₂]
      exact ⟨rfl, fun c hc => by cases hc⟩
    | other hp hleft hread hno =>
      have hblocks : leaseBlocks (e :: file) = leaseBlocks file := by
        rw [leaseBlocks, List.filterMap_cons, hno, leaseBlocks]
      rw [cut_plain hp, hleft, hblocks]
      refine ⟨ih₁, fun c hc => ?_⟩
      rcases List.mem_append.mp hc with hc | hc
      · exact hread c hc
      · exact ih₂ c hc

theorem leaseWorded_words {ws : List LeaseWord} (h : PlainItems (ws.map LeaseWord.item)) (lease : Bool) (n : Nat)
    (rest : List Item) : leaseWorded (ws.map LeaseWord.item ++ rest) false lease n =
      leaseWorded rest false lease (n + ws.length) := by
  induction ws generalizing n with
  | nil => rfl
  | cons w ws ih =>
    obtain ⟨hw, hws⟩ := @PlainItems.of_append [w.item] _ h
    have hword : leaseWorded (w.item :: (ws.map LeaseWord.item ++ rest)) false lease n =
        leaseWorded (ws.map LeaseWord.item ++ rest) false lease (n + 1) := by
      cases w with
      | string val => rfl
      | identifier val =>
        have hne := ofList_ne_lease (hw _ List.mem_cons_self).2
        rw [LeaseWord.item, leaseWorded, if_neg hne, if_neg Bool.false_ne_true]
    rw [List.map_cons, List.cons_append, hword, ih hws, List.length_cons, Nat.add_assoc, Nat.add_comm 1]

mutual

/-- Every `;` of plain text has a word since the last one. -/
theorem LeaseElement.worded : ∀ (e : LeaseElement), PlainItems e.items → ∀ (lease : Bool) (n : Nat),
    ∃ n', ∀ rest, leaseWorded (e.items ++ rest) false lease n = leaseWorded rest false lease n'
  | .statement word words, hp, lease, n => by
    refine ⟨0, fun rest => ?_⟩
    rw [LeaseElement.items] at hp ⊢
    rw [List.append_assoc, leaseWorded_words hp.of_append.1]
    show ((!lease || n + (word :: words).length ≠ 0) && leaseWorded rest false lease 0) = _
    have hpos : n + (word :: words).length ≠ 0 := by
      rw [List.length_cons]
      omega
    rw [decide_eq_true hpos, Bool.or_true, Bool.true_and]
  | .block head body, hp, lease, n => by
    rw [LeaseElement.items] at hp
    obtain ⟨n', hn'⟩ := leaseItems_worded body
      (fun i hi => hp i (List.mem_append_left _ (List.mem_append_right _ (List.mem_cons_of_mem _ hi))))
      lease (n + head.length)
    refine ⟨n', fun rest => ?_⟩
    rw [LeaseElement.items, List.append_assoc, List.append_assoc,
      leaseWorded_words hp.of_append.1.of_append.1]
    show leaseWorded (leaseItems body ++ .itemRightBrace :: rest) false lease (n + head.length) = _
    rw [hn']
    rfl

theorem leaseItems_worded : ∀ (es : List LeaseElement), PlainItems (leaseItems es) → ∀ (lease : Bool) (n : Nat),
    ∃ n', ∀ rest, leaseWorded (leaseItems es ++ rest) false lease n = leaseWorded rest false lease n'
  | [], _, _, n => ⟨n, fun _ => rfl⟩
  | e :: es, hp, lease, n => by
    rw [leaseItems] at hp
    obtain ⟨n', hn'⟩ := e.worded hp.of_append.1 lease n
    obtain ⟨n'', hn''⟩ := leaseItems_worded es hp.of_append.2 lease n'
    refine ⟨n'', fun rest => ?_⟩
    rw [leaseItems, List.append_assoc, hn', hn'']

end

theorem tidy_worded {file : List LeaseElement} (h : ∀ e ∈ file, Tidy e) (lease : Bool) (n : Nat) :
    leaseWorded (leaseFileItems file) false lease n = true := by
  induction file generalizing lease n with
  | nil => rfl
  | cons e file ih =>
    have ih := ih fun e he => h e (List.mem_cons_of_mem _ he)
    have hitems : leaseFileItems (e :: file) = e.items ++ leaseFileItems file := by
      rw [leaseFileItems, leaseItems, List.append_assoc, leaseFileItems]
    rw [hitems]
    cases h e List.mem_cons_self with
    | @lease keyword address body hk ha hs hp =>
      obtain ⟨n', hn'⟩ := leaseItems_worded body hp true n
      rw [LeaseElement.items, List.append_assoc, List.append_assoc]
      show leaseWorded (.itemIdentifier keyword :: .itemIdentifier address ::
        .itemLeftBrace :: (leaseItems body ++ .itemRightBrace :: leaseFileItems file)) false lease n = true
      rw [leaseWorded, if_pos hk, leaseWorded, if_neg ha, if_pos rfl, leaseWorded, hn', leaseWorded]
      exact ih true n'
    | other hp _ _ _ =>
      obtain ⟨n', hn'⟩ := e.worded hp lease n
      rw [hn']
      exact ih lease n'

end OpenConfigd
