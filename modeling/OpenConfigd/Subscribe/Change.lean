import OpenConfigd.Config.OneKey
import OpenConfigd.Go.Ascii
import OpenConfigd.Lib.EditScript
import OpenConfigd.Subscribe.Compare

/-!
# What a commit registers

`Commit` writes the command lines of both trees to files, and registers a command for
each line that `diff` says one of them has alone. `registersChange_of_legible` says when
that is a delete for every command node whose line only the active tree has, and a set for
every one whose line only the candidate has, each with its `CommandPath`: no mandatory node
is missing, the files are the same lines in one order apart from the lines of these nodes,
the scanner comes to them, and their words are read back as they were. Nothing is asked of
the lines of other nodes.

`IsLineDiff` is what is taken for granted of `diff`.
-/

namespace OpenConfigd

/-! ## Lines -/

/-- Lines as a text. -/
def unlines (lines : List (List Char)) : List Char := lines.flatMap fun l => l ++ ['\n']

/-- The lines of a text, with their line feeds. -/
def textLines : List Char → List (List Char)
  | [] => []
  | c :: text =>
    if c = '\n' then ['\n'] :: textLines text
    else
      match textLines text with
      | [] => [[c]]
      | l :: lines => (c :: l) :: lines

/-- A line without its line feed. -/
def chomp (l : List Char) : List Char := if l.getLast? = some '\n' then l.dropLast else l

/-- With the mark of `diff` the line is too long for the scanner. -/
def Long (l : List Char) : Prop := 65536 ≤ byteLength (chomp l) + 1

instance : DecidablePred Long := fun _ => inferInstanceAs (Decidable (_ ≤ _))

/-- Lines without a line feed. -/
def Whole (lines : List (List Char)) : Prop := ∀ l ∈ lines, '\n' ∉ l

theorem chomp_concat (l : List Char) : chomp (l ++ ['\n']) = l := by
  rw [chomp, List.getLast?_concat, if_pos rfl, List.dropLast_concat]

theorem splitOn_unlines {lines : List (List Char)} (h : Whole lines) :
    (unlines lines).splitOn '\n' = lines ++ [[]] := by
  induction lines with
  | nil => rfl
  | cons l lines ih =>
    have hl : '\n' ∉ l := h l List.mem_cons_self
    have ih := ih fun l hl => h l (List.mem_cons_of_mem _ hl)
    have hcons : unlines (l :: lines) = l ++ '\n' :: unlines lines := by
      rw [unlines, List.flatMap_cons, List.append_assoc, List.singleton_append, unlines]
    rw [hcons, List.splitOn_append_cons_self_of_not_mem hl, ih, List.cons_append]

theorem textLines_line {l : List Char} (h : '\n' ∉ l) (text : List Char) :
    textLines (l ++ '\n' :: text) = (l ++ ['\n']) :: textLines text := by
  induction l with
  | nil => rw [List.nil_append, textLines, if_pos rfl, List.nil_append]
  | cons c l ih =>
    have hc : c ≠ '\n' := fun hc => h (hc ▸ List.mem_cons_self)
    rw [List.cons_append, textLines, if_neg hc, ih fun hm => h (List.mem_cons_of_mem _ hm)]
    rfl

theorem textLines_unlines {lines : List (List Char)} (h : Whole lines) :
    textLines (unlines lines) = lines.map (· ++ ['\n']) := by
  induction lines with
  | nil => rfl
  | cons l lines ih =>
    have hcons : unlines (l :: lines) = l ++ '\n' :: unlines lines := by
      rw [unlines, List.flatMap_cons, List.append_assoc, List.singleton_append, unlines]
    rw [hcons, textLines_line (h l List.mem_cons_self), ih fun l hl => h l (List.mem_cons_of_mem _ hl),
      List.map_cons]

/-- The scanner stops at the first long line. -/
theorem scanLines_unlines {lines : List (List Char)} (h : Whole lines) :
    scanLines (unlines lines) = (lines.takeWhile fun l => byteLength l < 65536).map dropCR := by
  rw [scanLines, splitOn_unlines h]
  simp only [List.getLast?_concat, if_true, List.dropLast_concat]

theorem byteLength_cons (c : Char) (l : List Char) : byteLength (c :: l) = c.utf8Size + byteLength l := by
  rw [byteLength, List.map_cons, List.sum_cons, byteLength]

/-! ## The output of `diff` -/

open EditScript

/-- A line of the output that is neither of a file: the head of a part, and the remark on a file
without a line feed at its end. -/
def Remark (t : List Char) : Prop := (t.head? = some '@' ∨ t.head? = some '\\') ∧ byteLength t < 65536

/-- What `diff` prints for a step. It may leave out a line that both files have. -/
inductive Shows : Edit (List Char) → List (List Char) → Prop
  | kept (l : List Char) : Shows (.kept l) [' ' :: chomp l]
  | hidden (l : List Char) : Shows (.kept l) []
  | deleted (l : List Char) : Shows (.deleted l) ['-' :: chomp l]
  | added (l : List Char) : Shows (.added l) ['+' :: chomp l]

/-- What it prints for a script. -/
inductive Prints : List (Edit (List Char)) → List (List Char) → Prop
  | nil : Prints [] []
  | cons {e : Edit (List Char)} {es : List (Edit (List Char))} {ts body : List (List Char)} :
    Shows e ts → Prints es body → Prints (e :: es) (ts ++ body)
  | remark {es : List (Edit (List Char))} {body : List (List Char)} {t : List Char} : Remark t →
    Prints es body → Prints es (t :: body)

/-- The output of a correct `diff -U 65535` of two files: nothing when they are equal, and
else three lines and what it prints for a shortest script. -/
inductive IsLineDiff (old new : List Char) : Option (List Char) → Prop
  | same : old = new → IsLineDiff old new none
  | differ {header body : List (List Char)} {es : List (Edit (List Char))} : old ≠ new →
    header.length = 3 → Whole (header ++ body) → olds es = textLines old → news es = textLines new →
    Shortest es → Prints es body → IsLineDiff old new (some (unlines (header ++ body)))

/-! ## The command lines of a tree -/

namespace Config

/-- The command nodes that `WriteCommandTo` prints, in order. -/
def commandNodes (root : Config) : List Loc := placesSlot isCommand .configs root.configs []

variable (env : Env)

/-- What `writeCommand` prints for a command node. -/
def commandText (root : Config) (loc : Loc) : Option (List Char) :=
  (root.commandLine loc).map fun strs => env.fprintf ("set ".toList ++ joinSpace strs ++ ['\n'])

/-- The line of a command node. -/
def line (root : Config) (loc : Loc) : List Char := (root.commandText env loc).getD []

/-- The command nodes whose line the other tree does not have. -/
def changed (root other : Config) : List Loc :=
  root.commandNodes.filter fun loc => root.commandText env loc ∉ other.commandNodes.map (other.commandText env)

variable {env}

mutual

theorem writeCommand_places (root : Config) : ∀ (c : Config) (loc : Loc), writeCommand env root c loc =
    ((c.places isCommand loc).mapM (root.commandText env)).map List.flatten
  | ⟨n, configs, keys⟩, loc => by
    rw [writeCommand, writeCommandSlot_places root .keys keys, writeCommandSlot_places root .configs configs,
      places, List.mapM_append, List.mapM_append]
    cases hk : (placesSlot isCommand .keys keys loc).mapM (root.commandText env) with
    | none =>
      split <;> simp [commandText]
    | some ks =>
      cases hc : (placesSlot isCommand .configs configs loc).mapM (root.commandText env) with
      | none => split <;> simp [commandText]
      | some cs =>
        split
        · cases ht : root.commandLine loc with
          | none => simp [commandText, ht]
          | some strs => simp [commandText, ht]
        · simp

theorem writeCommandSlot_places (root : Config) (s : Slot) : ∀ (cs : List Config) (loc : Loc),
    writeCommandSlot env root s cs loc =
      ((placesSlot isCommand s cs loc).mapM (root.commandText env)).map List.flatten
  | [], _ => rfl
  | c :: cs, loc => by
    rw [writeCommandSlot, placesSlot, writeCommand_places root c, writeCommandSlot_places root s cs,
      List.mapM_append]
    cases (c.places isCommand (loc ++ [⟨s, c.name⟩])).mapM (root.commandText env) with
    | none => rfl
    | some ts =>
      cases (placesSlot isCommand s cs loc).mapM (root.commandText env) with
      | none => rfl
      | some us => simp

end

end Config

theorem mapM_eq_some {α β : Type} {f : α → Option β} {g : α → β} {l : List α}
    (h : ∀ a ∈ l, f a = some (g a)) : l.mapM f = some (l.map g) := by
  induction l with
  | nil => rfl
  | cons a l ih =>
    rw [List.mapM_cons, h a List.mem_cons_self, ih fun a ha => h a (List.mem_cons_of_mem _ ha)]
    rfl

/-! ## Reading a line back -/

/-- A name or a value that `NewCommand` reads back from the line as it was. -/
def ReadsBack (env : Env) (quote : Bool) (token : String) : Prop :=
  (∀ c ∈ token.toList, isSpace c = false ∧ c ≠ '%') ∧
    if quote then env.unquote ('"' :: token.toList ++ ['"']) = some token.toList
    else token ≠ "" ∧ unQuote env token.toList = token.toList

instance (env : Env) (quote : Bool) (token : String) : Decidable (ReadsBack env quote token) :=
  -- the characters of the token, not all that there are
  have : Decidable (∀ c ∈ token.toList, isSpace c = false ∧ c ≠ '%') := List.decidableBAll _ _
  inferInstanceAs (Decidable ((∀ c ∈ token.toList, isSpace c = false ∧ c ≠ '%') ∧
    if quote then env.unquote ('"' :: token.toList ++ ['"']) = some token.toList
    else token ≠ "" ∧ unQuote env token.toList = token.toList))

/-- So are the names and the values on the way to a place. -/
def Config.Readable (env : Env) : Config → Loc → Prop
  | _, [] => True
  | c, s :: l => match c.child? s with
    | none => True
    | some d => ReadsBack env false d.name ∧
      (∀ v ∈ d.pathValues, ∃ q, d.quote = some q ∧ ReadsBack env q v) ∧ d.Readable env l

instance Config.Readable.decidable (env : Env) : ∀ (c : Config) (loc : Loc), Decidable (c.Readable env loc)
  | _, [] => .isTrue trivial
  | c, s :: l =>
    match hd : c.child? s with
    | none => .isTrue (by rw [Readable, hd]; trivial)
    | some d =>
      have := decidable env d l
      decidable_of_iff (ReadsBack env false d.name ∧
        (∀ v ∈ d.pathValues, ∃ q, d.quote = some q ∧ ReadsBack env q v) ∧ d.Readable env l)
        (by rw [Readable, hd])

/-- Words that are read back as tokens. -/
structure Spells (env : Env) (strs path : List String) : Prop where
  plain : ∀ w ∈ strs, w.toList ≠ [] ∧ ∀ c ∈ w.toList, isSpace c = false ∧ c ≠ '%'
  read : strs.map (fun w => String.ofList (unQuote env w.toList)) = path

namespace Spells

theorem nil : Spells env [] [] := ⟨fun _ hw => absurd hw List.not_mem_nil, rfl⟩

theorem append {strs path strs' path' : List String} (h : Spells env strs path)
    (h' : Spells env strs' path') : Spells env (strs ++ strs') (path ++ path') := by
  constructor
  · intro w hw
    exact (List.mem_append.mp hw).elim (h.plain w) (h'.plain w)
  · rw [List.map_append, h.read, h'.read]

theorem bare {t : String} (h : ReadsBack env false t) : Spells env [t] [t] := by
  obtain ⟨hplain, hne, hread⟩ := h
  constructor
  · intro w hw
    rw [List.mem_singleton.mp hw]
    exact ⟨fun h => hne (String.toList_inj.mp h), hplain⟩
  · rw [List.map_singleton, hread, String.ofList_toList]

theorem quoted {t : String} (h : ReadsBack env true t) : Spells env ["\"" ++ t ++ "\""] [t] := by
  obtain ⟨hplain, hread⟩ := h
  have hlist : ("\"" ++ t ++ "\"").toList = '"' :: t.toList ++ ['"'] := by
    rw [String.toList_append, String.toList_append]
    rfl
  constructor
  · intro w hw
    rw [List.mem_singleton.mp hw, hlist]
    refine ⟨List.cons_ne_nil _ _, fun c hc => ?_⟩
    rcases List.mem_append.mp hc with hc | hc
    · rcases List.mem_cons.mp hc with rfl | hc
      · decide
      · exact hplain c hc
    · rw [List.mem_singleton.mp hc]
      decide
  · rw [List.map_singleton, hlist, unQuote, show env.unquote _ = _ from hread, Option.getD_some,
      String.ofList_toList]

end Spells

theorem Node.valueText_spells {n : Node} {v : String} {q : Bool} (hq : n.quote = some q)
    (h : ReadsBack env q v) : ∃ w, n.valueText v = some w ∧ Spells env [w] [v] := by
  rw [Node.valueText, hq, Option.map_some]
  cases q with
  | false => exact ⟨v, rfl, .bare h⟩
  | true => exact ⟨_, rfl, .quoted h⟩

theorem mapM_valueText_spells {n : Node} {vs : List String}
    (h : ∀ v ∈ vs, ∃ q, n.quote = some q ∧ ReadsBack env q v) :
    ∃ ws, vs.mapM n.valueText = some ws ∧ Spells env ws vs := by
  induction vs with
  | nil => exact ⟨[], rfl, .nil⟩
  | cons v vs ih =>
    obtain ⟨q, hq, hv⟩ := h v List.mem_cons_self
    obtain ⟨w, hw, hs⟩ := Node.valueText_spells hq hv
    obtain ⟨ws, hws, hss⟩ := ih fun v hv => h v (List.mem_cons_of_mem _ hv)
    refine ⟨w :: ws, ?_, hs.append hss⟩
    rw [List.mapM_cons, hw, hws]
    rfl

/-- The words of the line of a readable node spell its `CommandPath`. -/
theorem Config.Readable.spells : ∀ {c : Config} {loc : Loc}, c.Readable env loc →
    ∃ strs, c.commandLine loc = some strs ∧ Spells env strs (c.commandPath loc)
  | _, [], _ => ⟨[], rfl, .nil⟩
  | c, s :: l, h => by
    rw [commandLine, commandPath]
    rw [Readable] at h
    cases hd : c.child? s with
    | none => exact ⟨[], rfl, .nil⟩
    | some d =>
      rw [hd] at h
      obtain ⟨hname, hvs, hl⟩ := h
      obtain ⟨ws, hws, hs⟩ := mapM_valueText_spells hvs
      obtain ⟨strs, hstrs, hss⟩ := Readable.spells hl
      refine ⟨d.name :: ws ++ strs, ?_, ((Spells.bare hname).append hs).append hss⟩
      simp only [valueTexts, hws, hstrs, Option.bind_eq_bind, Option.bind_some, Option.pure_def]

/-! ## The words of a line -/

theorem fields_word {w rest : List Char} (hw : w ≠ []) (hs : ∀ c ∈ w, isSpace c = false) :
    fields (w ++ ' ' :: rest) = w :: fields rest := by
  rw [fields, List.splitOnP_append_cons_of_forall_mem hs ' ' (by decide), List.filter_cons_of_pos, fields]
  simpa using hw

theorem fields_single {w : List Char} (hw : w ≠ []) (hs : ∀ c ∈ w, isSpace c = false) :
    fields w = [w] := by
  rw [fields, List.splitOnP_eq_singleton hs]
  simpa using hw

theorem fields_joinSpace {strs : List String}
    (h : ∀ w ∈ strs, w.toList ≠ [] ∧ ∀ c ∈ w.toList, isSpace c = false) :
    fields (joinSpace strs) = strs.map String.toList := by
  induction strs with
  | nil => rfl
  | cons w strs ih =>
    have hw := h w List.mem_cons_self
    have ih := ih fun w hw => h w (List.mem_cons_of_mem _ hw)
    cases strs with
    | nil => exact fields_single hw.1 hw.2
    | cons w' strs =>
      have hcons : joinSpace (w :: w' :: strs) = w.toList ++ ' ' :: joinSpace (w' :: strs) := rfl
      rw [hcons, fields_word hw.1 hw.2, ih]
      rfl

theorem not_mem_joinSpace {strs : List String} {c : Char} (hc : c ≠ ' ')
    (h : ∀ w ∈ strs, c ∉ w.toList) : c ∉ joinSpace strs := by
  induction strs with
  | nil => exact List.not_mem_nil
  | cons w strs ih =>
    have hw := h w List.mem_cons_self
    have ih := ih fun w hw => h w (List.mem_cons_of_mem _ hw)
    cases strs with
    | nil => exact hw
    | cons w' strs =>
      intro hm
      rcases List.mem_append.mp hm with hm | hm
      · exact hw hm
      · rcases List.mem_cons.mp hm with rfl | hm
        · exact hc rfl
        · exact ih hm

/-- A readable node prints `set` and its words. -/
theorem Spells.line_eq {root : Config} {loc : Loc} {strs path : List String}
    (h : root.commandLine loc = some strs) (hs : Spells env strs path) :
    root.commandText env loc = some ("set ".toList ++ joinSpace strs ++ ['\n']) := by
  have hjoin : '%' ∉ joinSpace strs :=
    not_mem_joinSpace (by decide) fun w hw hm => ((hs.plain w hw).2 '%' hm).2 rfl
  have hplain : '%' ∉ "set ".toList ++ joinSpace strs ++ ['\n'] := by
    simp only [List.mem_append, List.mem_singleton, not_or]
    exact ⟨⟨by decide, hjoin⟩, by decide⟩
  rw [Config.commandText, h, Option.map_some, env.fprintf_plain _ hplain]

theorem dropCR_of_not_mem {l : List Char} (h : '\r' ∉ l) : dropCR l = l := by
  rw [dropCR, if_neg fun hl => h (List.mem_of_getLast? hl)]

/-- The mark of `diff` for a line that is set or deleted. -/
def mark (set : Bool) : Char := if set then '+' else '-'

/-- The command that is read from a marked line. -/
def markedCommand (env : Env) (set : Bool) (l : List Char) : Option Command :=
  newCommand env (dropCR (mark set :: chomp l))

/-- The line of a readable node, marked by `diff`, is read back as its command. -/
theorem Config.Readable.newCommand {root : Config} {loc : Loc} (h : root.Readable env loc) (set : Bool) :
    markedCommand env set (root.line env loc) = some ⟨set, root.commandPath loc⟩ := by
  obtain ⟨strs, hl, hs⟩ := h.spells
  have hjoin : '\r' ∉ joinSpace strs := not_mem_joinSpace (by decide) fun w hw hm =>
    absurd ((hs.plain w hw).2 _ hm).1 (by decide)
  have hline : mark set :: chomp (root.line env loc) = (mark set :: "set".toList) ++ ' ' :: joinSpace strs := by
    rw [Config.line, hs.line_eq hl, Option.getD_some, chomp_concat]
    rfl
  have hcr : '\r' ∉ mark set :: chomp (root.line env loc) := by
    rw [hline, List.mem_append, List.mem_cons (l := joinSpace strs)]
    cases set <;> simp [mark, hjoin]
  have hfields : fields (mark set :: chomp (root.line env loc)) =
      (mark set :: "set".toList) :: strs.map String.toList := by
    have hword : (mark set :: "set".toList).all (isSpace · == false) = true := by cases set <;> decide
    rw [hline, fields_word (List.cons_ne_nil _ _) (by simpa using hword),
      fields_joinSpace fun w hw => ⟨(hs.plain w hw).1, fun c hc => ((hs.plain w hw).2 c hc).1⟩]
  have hread : strs.map ((fun f => String.ofList (unQuote env f)) ∘ String.toList) =
      root.commandPath loc := hs.read
  rw [markedCommand, dropCR_of_not_mem hcr, OpenConfigd.newCommand, hfields, List.drop_one, List.tail_cons,
    List.map_map, hread]
  cases set <;> rfl

/-! ## The commands of a commit -/

theorem dropCR_cons {c : Char} (hc : c ≠ '\r') (t : List Char) : ∃ t', dropCR (c :: t) = c :: t' := by
  rw [dropCR]
  split
  · cases t with
    | nil => exact absurd (Option.some.inj ‹_›) hc
    | cons d t => exact ⟨_, List.dropLast_cons_of_ne_nil (List.cons_ne_nil _ _)⟩
  · exact ⟨t, rfl⟩

/-- A marked line is a command, whatever it is. -/
theorem markedCommand_isSome (set : Bool) (l : List Char) : ∃ cmd, markedCommand env set l = some cmd := by
  obtain ⟨t', ht⟩ := dropCR_cons (show mark set ≠ '\r' by cases set <;> decide) (chomp l)
  rw [markedCommand, ht]
  cases set <;> exact ⟨_, rfl⟩

theorem newCommand_unmarked {c : Char} (hcr : c ≠ '\r') (hp : c ≠ '+') (hm : c ≠ '-') (t : List Char) :
    newCommand env (dropCR (c :: t)) = none := by
  obtain ⟨t', ht⟩ := dropCR_cons hcr t
  rw [ht, newCommand]
  simp only [hp, hm, if_false]

theorem Remark.newCommand {t : List Char} (h : Remark t) : OpenConfigd.newCommand env (dropCR t) = none := by
  obtain ⟨hh, -⟩ := h
  cases t with
  | nil => rfl
  | cons c t =>
    rcases hh with hh | hh <;> cases hh <;> exact newCommand_unmarked (by decide) (by decide) (by decide) t

theorem Shows.commands {e : Edit (List Char)} {ts : List (List Char)} (h : Shows e ts) :
    ts.filterMap (newCommand env ∘ dropCR) = (EditScript.deleted [e]).filterMap (markedCommand env false) ++
      (EditScript.added [e]).filterMap (markedCommand env true) := by
  cases h with
  | kept l =>
    have hnone : (newCommand env ∘ dropCR) (' ' :: chomp l) = none :=
      newCommand_unmarked (by decide) (by decide) (by decide) _
    rw [List.filterMap_cons_none hnone]
    rfl
  | hidden l => rfl
  | deleted l => exact (List.append_nil _).symm
  | added l => rfl

theorem Shows.short {e : Edit (List Char)} {ts : List (List Char)} (h : Shows e ts)
    (he : ∀ l ∈ olds [e] ++ news [e], ¬ Long l) : ∀ t ∈ ts, byteLength t < 65536 := by
  have hcons {c : Char} (hc : c.utf8Size = 1) {l : List Char} (hl : ¬ Long l) :
      ∀ t ∈ [c :: chomp l], byteLength t < 65536 := by
    intro t ht
    rw [List.mem_singleton.mp ht, byteLength_cons, hc]
    rw [Long] at hl
    omega
  cases h with
  | kept l => exact hcons (by decide) (he l List.mem_cons_self)
  | hidden l => exact fun t ht => absurd ht List.not_mem_nil
  | deleted l => exact hcons (by decide) (he l List.mem_cons_self)
  | added l => exact hcons (by decide) (he l List.mem_cons_self)

namespace Prints

variable {es : List (Edit (List Char))} {body : List (List Char)}

/-- The commands that are read from the output. -/
theorem commands (h : Prints es body) : (body.filterMap (newCommand env ∘ dropCR)).Perm
    ((deleted es).filterMap (markedCommand env false) ++ (added es).filterMap (markedCommand env true)) := by
  induction h with
  | nil => exact .nil
  | @cons e es ts body he _ ih =>
    have hdel : deleted (e :: es) = deleted [e] ++ deleted es := @deleted_append _ [e] es
    have hadd : added (e :: es) = added [e] ++ added es := @added_append _ [e] es
    rw [List.filterMap_append, he.commands, hdel, hadd, List.filterMap_append, List.filterMap_append,
      List.append_assoc, List.append_assoc]
    refine List.Perm.append_left _ ((ih.append_left _).trans ?_)
    rw [← List.append_assoc, ← List.append_assoc]
    exact List.perm_append_comm.append_right _
  | @remark es body t ht _ ih =>
    have hnone : (newCommand env ∘ dropCR) t = none := ht.newCommand
    rw [List.filterMap_cons_none hnone]
    exact ih

theorem append {es₁ es₂ : List (Edit (List Char))} (h : Prints (es₁ ++ es₂) body) :
    ∃ body₁ body₂, body = body₁ ++ body₂ ∧ Prints es₁ body₁ ∧ Prints es₂ body₂ := by
  generalize hes : es₁ ++ es₂ = es at h
  induction h generalizing es₁ with
  | nil =>
    obtain ⟨rfl, rfl⟩ := List.append_eq_nil_iff.mp hes
    exact ⟨[], [], rfl, .nil, .nil⟩
  | remark ht _ ih =>
    obtain ⟨body₁, body₂, rfl, h₁, h₂⟩ := ih hes
    exact ⟨_ :: body₁, body₂, rfl, .remark ht h₁, h₂⟩
  | @cons e es ts body he h ih =>
    cases es₁ with
    | nil =>
      rw [List.nil_append] at hes
      exact ⟨[], _, rfl, .nil, hes ▸ .cons he h⟩
    | cons e₁ es₁ =>
      obtain ⟨rfl, htail⟩ := List.cons.inj hes
      obtain ⟨body₁, body₂, rfl, h₁, h₂⟩ := ih htail
      exact ⟨ts ++ body₁, body₂, (List.append_assoc _ _ _).symm, .cons he h₁, h₂⟩

/-- What is printed for lines that are not long is not either. -/
theorem short (h : Prints es body) (hes : ∀ l ∈ olds es ++ news es, ¬ Long l) :
    ∀ t ∈ body, byteLength t < 65536 := by
  induction h with
  | nil => exact fun t ht => absurd ht List.not_mem_nil
  | @cons e es ts body he _ ih =>
    have hsplit (l : List Char) (hl : l ∈ olds [e] ++ news [e] ∨ l ∈ olds es ++ news es) : ¬ Long l := by
      refine hes l ?_
      rw [← List.singleton_append, olds_append, news_append]
      simp only [List.mem_append] at hl ⊢
      tauto
    intro t ht
    rcases List.mem_append.mp ht with ht | ht
    · exact he.short (fun l hl => hsplit l (.inl hl)) t ht
    · exact ih (fun l hl => hsplit l (.inr hl)) t ht
  | remark ht _ ih => exact List.forall_mem_cons.mpr ⟨ht.2, ih hes⟩

end Prints

/-- Apart from the lines of the changed nodes, the files are the same lines in one order. -/
def SameApart (env : Env) (active candidate : Config) (old new : List Char) : Prop :=
  ∃ common : List (List Char), common.Sublist (textLines old) ∧ common.Sublist (textLines new) ∧
    (common ++ (active.changed env candidate).map (active.line env)).Perm (textLines old) ∧
    (common ++ (candidate.changed env active).map (candidate.line env)).Perm (textLines new)

/-- From the first line on that is too long for the scanner, the files are equal. -/
def SameFromLong (old new : List Char) : Prop :=
  ∃ xs ys rest, textLines old = xs ++ rest ∧ textLines new = ys ++ rest ∧
    (∀ l ∈ xs, ¬ Long l) ∧ (∀ l ∈ ys, ¬ Long l) ∧ ∀ l ∈ rest.head?, Long l

/-- Nothing has changed, or no mandatory node is missing, `diff` marks the lines of the changed nodes
alone, the scanner comes to them, and they are read back as they were. -/
inductive Legible (env : Env) (active candidate : Config) : Prop
  | unchanged : candidate.mandatoryCheck ≠ none → active.changed env candidate = [] →
    candidate.changed env active = [] → Legible env active candidate
  | read {old new : List Char} : candidate.mandatoryCheck = none →
    active.writeCommandTo env = some old → candidate.writeCommandTo env = some new →
    SameApart env active candidate old new → SameFromLong old new →
    (∀ loc ∈ active.changed env candidate, active.Readable env loc) →
    (∀ loc ∈ candidate.changed env active, candidate.Readable env loc) → Legible env active candidate

/-- `Commit` registers one delete for every command node whose line only the active tree has,
one set for every one whose line only the candidate has, and nothing else. -/
def RegistersChange (env : Env) (diff : List Char → List Char → Option (List Char))
    (active candidate : Config) : Prop :=
  ∃ cmds, commitCommands env diff active candidate = some cmds ∧
    cmds.Perm ((active.changed env candidate).map (fun loc => ⟨false, active.commandPath loc⟩) ++
      (candidate.changed env active).map fun loc => ⟨true, candidate.commandPath loc⟩)

variable {diff : List Char → List Char → Option (List Char)} {active candidate : Config}

/-- What `Commit` reads from the output of `diff`. -/
theorem scanLines_compare {header body : List (List Char)} (hh : header.length = 3)
    (hw : Whole (header ++ body)) :
    scanLines (((if 3 < ((unlines (header ++ body)).splitOn '\n').length then
      ((unlines (header ++ body)).splitOn '\n').drop 3 else (unlines (header ++ body)).splitOn '\n')).flatMap
        fun l => l ++ ['\n']) = ((body ++ [[]]).takeWhile fun l => byteLength l < 65536).map dropCR := by
  rw [splitOn_unlines hw, if_pos (by simp only [List.length_append, hh, List.length_singleton]; omega),
    List.append_assoc, List.drop_left' hh]
  refine scanLines_unlines fun l hl => ?_
  rcases List.mem_append.mp hl with hl | hl
  · exact hw l (List.mem_append_right _ hl)
  · rw [List.mem_singleton.mp hl]
    exact List.not_mem_nil

/-- The commands are those of the lines that a correct diff marks, if the scanner comes to them. -/
theorem changeCommands_script {old new : List Char} (hold : active.writeCommandTo env = some old)
    (hnew : candidate.writeCommandTo env = some new) (hlong : SameFromLong old new)
    (hdiff : IsLineDiff old new (diff old new)) :
    ∃ cmds es, changeCommands env diff active candidate = some cmds ∧ olds es = textLines old ∧
      news es = textLines new ∧ Shortest es ∧
      cmds.Perm ((deleted es).filterMap (markedCommand env false) ++
        (added es).filterMap (markedCommand env true)) := by
  rw [changeCommands, compareCommand, hold, hnew]
  simp only [Option.bind_eq_bind, Option.bind_some]
  generalize diff old new = out at hdiff
  cases hdiff with
  | same heq =>
    subst heq
    exact ⟨[], _, rfl, olds_map_kept _, news_map_kept _, shortest_map_kept _,
      by rw [deleted_map_kept, added_map_kept]; exact .nil⟩
  | @differ header body es hne hh hw ho hn hs hp =>
    refine ⟨_, es, rfl, ho, hn, hs, ?_⟩
    show (List.filterMap (newCommand env) (scanLines _)).Perm _
    rw [scanLines_compare hh hw, List.filterMap_map]
    obtain ⟨xs, ys, rest, hxs, hys, hshort₁, hshort₂, hrest⟩ := hlong
    obtain ⟨es₁, es₂, rfl, hes₁, hdel, hadd⟩ :=
      hs.split_at (ho.trans hxs) (hn.trans hys) hshort₁ hshort₂ hrest
    obtain ⟨body₁, body₂, rfl, hp₁, hp₂⟩ := hp.append
    -- The part after the first long line marks nothing.
    have hnone : (body₂ ++ [[]]).filterMap (newCommand env ∘ dropCR) = [] := by
      have h₂ : (body₂.filterMap (newCommand env ∘ dropCR)).Perm _ := hp₂.commands
      rw [hdel, hadd] at h₂
      rw [List.filterMap_append, h₂.eq_nil]
      rfl
    have htake : ((body₂ ++ [[]]).takeWhile fun l => byteLength l < 65536).filterMap
        (newCommand env ∘ dropCR) = [] := by
      have := (List.takeWhile_sublist (l := body₂ ++ [[]]) fun l => byteLength l < 65536).filterMap
        (newCommand env ∘ dropCR)
      rw [hnone] at this
      exact List.sublist_nil.mp this
    rw [List.append_assoc, List.takeWhile_append_of_pos fun t ht => decide_eq_true (hp₁.short hes₁ t ht),
      List.filterMap_append, htake, List.append_nil, deleted_append, added_append, hdel, hadd,
      List.append_nil, List.append_nil]
    exact hp₁.commands

/-- What is read back from the lines of readable nodes. -/
theorem filterMap_readable {root : Config} {set : Bool} {locs : List Loc}
    (h : ∀ loc ∈ locs, root.Readable env loc) :
    (locs.map (root.line env)).filterMap (markedCommand env set) =
      locs.map fun loc => ⟨set, root.commandPath loc⟩ := by
  rw [List.filterMap_map]
  induction locs with
  | nil => rfl
  | cons loc locs ih =>
    have hl := (h loc List.mem_cons_self).newCommand set
    have ih := ih fun loc hloc => h loc (List.mem_cons_of_mem _ hloc)
    simp only [List.filterMap_cons, Function.comp_apply, hl, List.map_cons]
    exact congrArg (_ :: ·) ih

theorem length_filterMap_marked (set : Bool) (lines : List (List Char)) :
    (lines.filterMap (markedCommand env set)).length = lines.length := by
  induction lines with
  | nil => rfl
  | cons t lines ih =>
    obtain ⟨cmd, hcmd⟩ := @markedCommand_isSome env set t
    simp only [List.filterMap_cons, hcmd, List.length_cons, ih]

/-- The lines of changed nodes are not on both sides. -/
theorem changed_disjoint (hold : ∀ loc ∈ active.changed env candidate, active.Readable env loc)
    (hnew : ∀ loc ∈ candidate.changed env active, candidate.Readable env loc) :
    ((active.changed env candidate).map (active.line env)).Disjoint
      ((candidate.changed env active).map (candidate.line env)) := by
  intro l hl hl'
  obtain ⟨loc, hloc, rfl⟩ := List.mem_map.mp hl
  obtain ⟨loc', hloc', heq⟩ := List.mem_map.mp hl'
  obtain ⟨strs, hs, hsp⟩ := (hold loc hloc).spells
  obtain ⟨strs', hs', hsp'⟩ := (hnew loc' hloc').spells
  rw [Config.line, Config.line, hsp.line_eq hs, hsp'.line_eq hs', Option.getD_some, Option.getD_some] at heq
  obtain ⟨hmem, hno⟩ := List.mem_filter.mp hloc
  refine of_decide_eq_true hno (List.mem_map.mpr ⟨loc', (List.mem_filter.mp hloc').1, ?_⟩)
  rw [hsp.line_eq hs, hsp'.line_eq hs', heq]

/-! ## Trees whose nodes print lines -/

/-- Every command node prints one line, shorter than the scanner's limit. -/
def Scannable (env : Env) (root : Config) : Prop :=
  ∀ loc ∈ root.commandNodes, ∃ l, root.commandText env loc = some (l ++ ['\n']) ∧ '\n' ∉ l ∧
    byteLength l + 1 < 65536

namespace Scannable

variable {root other : Config}

theorem textLines_file (h : Scannable env root) : ∃ text, root.writeCommandTo env = some text ∧
    textLines text = root.commandNodes.map (root.line env) ∧ ∀ l ∈ textLines text, ¬ Long l := by
  have htext : root.writeCommandTo env = some ((root.commandNodes.map (root.line env)).flatten) := by
    rw [Config.writeCommandTo, Config.writeCommandSlot_places,
      show Config.placesSlot Config.isCommand .configs root.configs [] = root.commandNodes from rfl,
      mapM_eq_some (g := root.line env) fun loc hloc => ?_, Option.map_some]
    obtain ⟨l, hl, -⟩ := h loc hloc
    rw [Config.line, hl, Option.getD_some]
  have hlines : root.commandNodes.map (root.line env) =
      (root.commandNodes.map fun loc => chomp (root.line env loc)).map (· ++ ['\n']) := by
    rw [List.map_map]
    refine List.map_congr_left fun loc hloc => ?_
    obtain ⟨l, hl, -⟩ := h loc hloc
    rw [Function.comp_apply, Config.line, hl, Option.getD_some, chomp_concat]
  have hwhole : Whole (root.commandNodes.map fun loc => chomp (root.line env loc)) := by
    intro t ht
    obtain ⟨loc, hloc, rfl⟩ := List.mem_map.mp ht
    obtain ⟨l, hl, hn, -⟩ := h loc hloc
    rw [Config.line, hl, Option.getD_some, chomp_concat]
    exact hn
  have hfile : textLines (root.commandNodes.map (root.line env)).flatten =
      root.commandNodes.map (root.line env) := by
    rw [hlines, ← List.flatMap_def, ← unlines, textLines_unlines hwhole]
  refine ⟨_, htext, hfile, fun t ht => ?_⟩
  rw [hfile] at ht
  obtain ⟨loc, hloc, rfl⟩ := List.mem_map.mp ht
  obtain ⟨l, hl, -, hs⟩ := h loc hloc
  rw [Long, Config.line, hl, Option.getD_some, chomp_concat]
  omega

/-- The lines of the changed nodes are those that the other file does not have. -/
theorem changed_lines (h : Scannable env root) (h' : Scannable env other) :
    (root.changed env other).map (root.line env) =
      (root.commandNodes.map (root.line env)).filter (· ∉ other.commandNodes.map (other.line env)) := by
  rw [List.filter_map, Config.changed]
  congr 1
  refine List.filter_congr fun loc hloc => ?_
  obtain ⟨l, hl, -⟩ := h loc hloc
  rw [Function.comp_apply, decide_eq_decide, not_iff_not, List.mem_map, List.mem_map]
  refine exists_congr fun loc' => and_congr_right fun hloc' => ?_
  obtain ⟨l', hl', -⟩ := h' loc' hloc'
  rw [Config.line, Config.line, hl, hl', Option.getD_some, Option.getD_some, Option.some.injEq]

end Scannable

/-- `Commit` registers exactly the change when the trees are legible. Conversely, when it does although
a mandatory node is missing, nothing has changed; and when it does and the nodes print lines, the
files are the same lines in one order apart from those of the changed nodes. -/
theorem registersChange_of_legible (hdiff : ∀ old new, active.writeCommandTo env = some old →
      candidate.writeCommandTo env = some new → IsLineDiff old new (diff old new)) :
    (Legible env active candidate → RegistersChange env diff active candidate) ∧
    (RegistersChange env diff active candidate → candidate.mandatoryCheck ≠ none →
      active.changed env candidate = [] ∧ candidate.changed env active = []) ∧
    (RegistersChange env diff active candidate → candidate.mandatoryCheck = none →
      Scannable env active → Scannable env candidate →
      ∃ old new, active.writeCommandTo env = some old ∧ candidate.writeCommandTo env = some new ∧
        SameApart env active candidate old new) := by
  refine ⟨fun h => ?_, ?_, ?_⟩
  · cases h with
    | unchanged hm hold hnew =>
      obtain ⟨text, ht⟩ := Option.ne_none_iff_exists'.mp hm
      rw [RegistersChange, commitCommands, ht, hold, hnew]
      exact ⟨[], rfl, .nil⟩
    | @read old new hm hold hnew hsame hlong hdel hadd =>
      obtain ⟨common, hco, hcn, hpo, hpn⟩ := hsame
      obtain ⟨cmds, es, hc, ho, hn, hs, hp⟩ := changeCommands_script hold hnew hlong (hdiff _ _ hold hnew)
      rw [← ho] at hco hpo
      rw [← hn] at hcn hpn
      obtain ⟨hd, ha⟩ := hs.perm_of_common hco hcn hpo hpn (changed_disjoint hdel hadd)
      refine ⟨cmds, by rw [commitCommands, hm]; exact hc, hp.trans ?_⟩
      rw [← filterMap_readable hdel, ← filterMap_readable hadd]
      exact (hd.filterMap _).append (ha.filterMap _)
  · rintro ⟨cmds, hc, hp⟩ hm
    obtain ⟨text, ht⟩ := Option.ne_none_iff_exists'.mp hm
    rw [commitCommands, ht] at hc
    cases hc
    obtain ⟨hd, ha⟩ := List.append_eq_nil_iff.mp hp.symm.eq_nil
    exact ⟨List.map_eq_nil_iff.mp hd, List.map_eq_nil_iff.mp ha⟩
  · rintro ⟨cmds', hc', hp'⟩ hm hsa hsc
    obtain ⟨old, hold, hlo, hso⟩ := hsa.textLines_file
    obtain ⟨new, hnew, hln, hsn⟩ := hsc.textLines_file
    have hlong : SameFromLong old new :=
      ⟨_, _, [], (List.append_nil _).symm, (List.append_nil _).symm, hso, hsn, fun _ h => by cases h⟩
    obtain ⟨cmds, es, hc, ho, hn, -, hp⟩ := changeCommands_script hold hnew hlong (hdiff _ _ hold hnew)
    rw [commitCommands, hm] at hc'
    cases hc.symm.trans hc'
    have hdel := hsa.changed_lines hsc
    have hadd := hsc.changed_lines hsa
    rw [← hlo, ← hln, ← ho, ← hn] at hdel hadd
    have hlen := (hp.symm.trans hp').length_eq
    rw [List.length_append, List.length_append, length_filterMap_marked, length_filterMap_marked,
      List.length_map, List.length_map, ← List.length_map (active.line env), hdel,
      ← List.length_map (candidate.line env), hadd] at hlen
    have horder := filter_mem_eq hlen
    refine ⟨old, new, hold, hnew, (olds es).filter (· ∈ news es), ?_, ?_, ?_, ?_⟩
    · exact ho ▸ List.filter_sublist
    · rw [horder]
      exact hn ▸ List.filter_sublist
    · rw [hdel, ← ho]
      exact filter_mem_append _ _
    · rw [hadd, horder, ← hn]
      exact filter_mem_append _ _

/-- `Ascii.diff` is correct where every line changes. -/
theorem isLineDiff_ascii {xs ys : List (List Char)} (hx : Whole xs) (hy : Whole ys)
    (hne : unlines xs ≠ unlines ys) (hd : xs.Disjoint ys) :
    IsLineDiff (unlines xs) (unlines ys) (Ascii.diff (unlines xs) (unlines ys)) := by
  have hfile {zs : List (List Char)} (hz : Whole zs) : Ascii.fileLines (unlines zs) = zs := by
    rw [Ascii.fileLines, splitOn_unlines hz, List.dropLast_concat]
  have hmarked (c : Char) (zs : List (List Char)) :
      unlines (zs.map (c :: ·)) = zs.flatMap fun l => c :: l ++ ['\n'] := by
    rw [unlines, List.flatMap_map]
  have htext : Ascii.diff (unlines xs) (unlines ys) = some (unlines
      (["--- /tmp/config.1".toList, "+++ /tmp/config.2".toList, "@@ @@".toList] ++
        (xs.map ('-' :: ·) ++ ys.map ('+' :: ·)))) := by
    rw [Ascii.diff, if_neg hne, hfile hx, hfile hy, ← hmarked, ← hmarked]
    simp only [unlines, List.flatMap_append, List.append_assoc]
    rfl
  have hwhole {c : Char} (hc : c ≠ '\n') {zs : List (List Char)} (hz : Whole zs) :
      Whole (zs.map (c :: ·)) := by
    intro l hl
    obtain ⟨t, ht, rfl⟩ := List.mem_map.mp hl
    exact fun hm => (List.mem_cons.mp hm).elim (fun h => hc h.symm) (hz t ht)
  have hadded (zs : List (List Char)) : Prints ((zs.map (· ++ ['\n'])).map Edit.added)
      (zs.map ('+' :: ·)) := by
    induction zs with
    | nil => exact .nil
    | cons z zs ih =>
      have hz := Shows.added (z ++ ['\n'])
      rw [chomp_concat] at hz
      exact .cons hz ih
  have hprints : Prints (replace (xs.map (· ++ ['\n'])) (ys.map (· ++ ['\n'])))
      (xs.map ('-' :: ·) ++ ys.map ('+' :: ·)) := by
    clear hx hne hd htext
    induction xs with
    | nil => exact hadded ys
    | cons x xs ih =>
      have hx := Shows.deleted (x ++ ['\n'])
      rw [chomp_concat] at hx
      exact @Prints.cons _ _ ['-' :: x] _ hx ih
  have hdis : (xs.map (· ++ ['\n'])).Disjoint (ys.map (· ++ ['\n'])) := by
    intro l hl hl'
    obtain ⟨x, hx, rfl⟩ := List.mem_map.mp hl
    obtain ⟨y, hy, he⟩ := List.mem_map.mp hl'
    exact hd hx (List.append_cancel_right he ▸ hy)
  rw [htext]
  refine .differ hne rfl ?_ (by rw [olds_replace, textLines_unlines hx])
    (by rw [news_replace, textLines_unlines hy]) (shortest_replace hdis) hprints
  exact List.forall_mem_append.mpr ⟨by decide, List.forall_mem_append.mpr
    ⟨hwhole (by decide) hx, hwhole (by decide) hy⟩⟩

/-- An address with a space is cut in two. -/
theorem commit_cuts_address : ∃ (candidate : Config) (old new : List Char),
    Reach .ascii interfacesSchema {} ∧ Reach .ascii interfacesSchema candidate ∧
    ({} : Config).writeCommandTo .ascii = some old ∧ candidate.writeCommandTo .ascii = some new ∧
    IsLineDiff old new (Ascii.diff old new) ∧ ¬ RegistersChange .ascii Ascii.diff {} candidate := by
  obtain ⟨r, hr, hx⟩ := Option.map_eq_some_iff.mp (show
    (parse .ascii interfacesSchema {} ["interfaces", "interface", "eth0", "address", "a b"]).map (fun r =>
      (r.code, decide (r.tree.writeCommandTo .ascii = some (unlines
          ["set interfaces interface eth0".toList, "set interfaces interface eth0 address \"a b\"".toList]) ∧
        commitCommands .ascii Ascii.diff {} r.tree = some [⟨true, ["interfaces", "interface", "eth0"]⟩,
          ⟨true, ["interfaces", "interface", "eth0", "address", "\"a", "b\""]⟩] ∧
        (r.tree.changed .ascii {}).map r.tree.commandPath = [["interfaces", "interface", "eth0"],
          ["interfaces", "interface", "eth0", "address", "a b"]]))) =
    some (.parseSuccess, true) by decide +kernel)
  simp only [Prod.mk.injEq, decide_eq_true_eq] at hx
  obtain ⟨hc, hwrite, hcmds, hpaths⟩ := hx
  refine ⟨r.tree, _, _, .empty, .set .empty hr hc, rfl, hwrite,
    @isLineDiff_ascii [] _ (fun _ h => by cases h) (by unfold Whole; decide) (by decide) (List.disjoint_nil_left _), ?_⟩
  rintro ⟨cmds, hc', hp⟩
  cases hcmds.symm.trans hc'
  have hmem : (⟨true, ["interfaces", "interface", "eth0", "address", "\"a", "b\""]⟩ : Command) ∈
      (r.tree.changed .ascii {}).map fun loc => (⟨true, r.tree.commandPath loc⟩ : Command) :=
    hp.subset (List.mem_cons_of_mem _ List.mem_cons_self)
  have hpath := List.mem_map_of_mem (f := Command.cmds) hmem
  rw [List.map_map, show Command.cmds ∘ (fun loc => (⟨true, r.tree.commandPath loc⟩ : Command)) =
    r.tree.commandPath from rfl, hpaths] at hpath
  exact absurd hpath (by decide)

/-- A new interface with an MTU. -/
theorem registersChange_mtu : ∃ (candidate : Config), Reach .ascii interfacesSchema candidate ∧
    candidate.commandPaths = [["interfaces", "interface", "eth0"],
      ["interfaces", "interface", "eth0", "mtu", "1500"]] ∧
    RegistersChange .ascii Ascii.diff {} candidate := by
  obtain ⟨r, hr, hx⟩ := Option.map_eq_some_iff.mp (show
    (parse .ascii interfacesSchema {} ["interfaces", "interface", "eth0", "mtu", "1500"]).map (fun r =>
      (r.code, decide (r.tree.mandatoryCheck = none ∧ r.tree.writeCommandTo .ascii = some (unlines
          ["set interfaces interface eth0".toList, "set interfaces interface eth0 mtu 1500".toList]) ∧
        (r.tree.changed .ascii {}).map (r.tree.line .ascii) = textLines (unlines
          ["set interfaces interface eth0".toList, "set interfaces interface eth0 mtu 1500".toList]) ∧
        (∀ loc ∈ r.tree.changed .ascii {}, r.tree.Readable .ascii loc) ∧
        r.tree.commandPaths = [["interfaces", "interface", "eth0"],
          ["interfaces", "interface", "eth0", "mtu", "1500"]]))) =
    some (.parseSuccess, true) by decide +kernel)
  simp only [Prod.mk.injEq, decide_eq_true_eq] at hx
  obtain ⟨hc, hm, hwrite, hlines, hread, hpaths⟩ := hx
  have hdiff : ∀ old new, ({} : Config).writeCommandTo .ascii = some old →
      r.tree.writeCommandTo .ascii = some new → IsLineDiff old new (Ascii.diff old new) := by
    intro old new hold hnew
    cases hold
    cases hwrite.symm.trans hnew
    exact @isLineDiff_ascii [] _ (fun _ h => by cases h) (by unfold Whole; decide) (by decide)
      (List.disjoint_nil_left _)
  have hapart : SameApart .ascii {} r.tree [] (unlines
      ["set interfaces interface eth0".toList, "set interfaces interface eth0 mtu 1500".toList]) :=
    ⟨[], List.nil_sublist _, List.nil_sublist _, .nil, by rw [List.nil_append, hlines]⟩
  have hlong : SameFromLong [] (unlines
      ["set interfaces interface eth0".toList, "set interfaces interface eth0 mtu 1500".toList]) :=
    ⟨[], _, [], rfl, (List.append_nil _).symm, fun _ h => absurd h List.not_mem_nil, by decide +kernel,
      fun _ h => absurd h (by simp)⟩
  exact ⟨r.tree, .set .empty hr hc, hpaths, (registersChange_of_legible hdiff).1
    (.read hm rfl hwrite hapart hlong (fun _ h => absurd h List.not_mem_nil) hread)⟩

end OpenConfigd
