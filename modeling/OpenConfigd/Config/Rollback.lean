import Mathlib.Data.List.DropRight
import OpenConfigd.Config.Text
import OpenConfigd.Go.Decimal
import OpenConfigd.Lib.Rotation

/-!
# The revision files

`Commit` renames the revision files in `ConfigDir` and writes the newest one where the active file
is. A path is looked up in a directory: `walk` is the operating system's way from a directory along
the part of a path that ends in its last slash.

* `rollback_history_iff`: when the revision files hold the last texts committed;
* `follows_absolute`: what that asks of an absolute path.
-/

namespace OpenConfigd

namespace Rollback

/-- The path up to its last slash. -/
def dirPart (path : List Char) : List Char := path.rdropWhile (· ≠ '/')

/-- The name after the last slash. -/
def namePart (path : List Char) : List Char := path.rtakeWhile (· ≠ '/')

/-- `path.IsAbs`. -/
def isAbs (path : List Char) : Bool := path.head? = some '/'

/-- `path.Base`. -/
def base (path : List Char) : List Char :=
  if path = [] then ['.']
  else
    let name := namePart (path.rdropWhile (· = '/'))
    if name = [] then ['/'] else name

/-- `configActiveFile`, from the options of the daemon. -/
def configActiveFile (configFileDir configFile : List Char) : List Char :=
  if isAbs configFile then configFile else configFileDir ++ '/' :: configFile

/-- `ConfigDir`. -/
def configDir : List Char := "/usr/local/etc".toList

/-- `ConfigRevisionMax`. -/
def configRevisionMax : Nat := 50

/-- The name of a revision file. -/
def revision (path : List Char) (rev : Nat) : List Char := path ++ '.' :: (Nat.repr rev).toList

/-- The directories of a system, and where a path leads from one of them. -/
structure Directories (D : Type) where
  walk : D → List Char → D
  walk_nil : ∀ d, walk d [] = d
  walk_abs : ∀ d d' path, isAbs path = true → walk d path = walk d' path

section

variable {D : Type} [DecidableEq D] (dirs : Directories D)

/-- The entry that a path names. -/
def locate (cwd : D) (path : List Char) : D × List Char := (dirs.walk cwd (dirPart path), namePart path)

/-- The working directory of the daemon and the files of the system. -/
structure Disk (D : Type) where
  cwd : D
  file : D × List Char → Option (List Char)

/-- `RollbackRevisionIncrement` where `configFileBasename` is the base of the active file. -/
def rollbackRevisionIncrement (active : List Char) (s : Disk D) : Disk D :=
  let cwd := dirs.walk s.cwd configDir
  { cwd, file := Rotation.shift (fun rev => locate dirs cwd (revision (base active) rev))
      (configRevisionMax - 1) s.file }

/-- `WriteTo`. -/
def writeTo (path text : List Char) (s : Disk D) : Disk D :=
  { s with file := Rotation.write s.file (locate dirs s.cwd path) text }

/-- What `Commit` does on the disk when `zeroConfig` is off. -/
def commit (active : List Char) (s : Disk D) (text : List Char) : Disk D :=
  writeTo dirs (active ++ ".0".toList) text (rollbackRevisionIncrement dirs active s)

/-- The line `Signature` writes, and the tree that becomes `configActive`. -/
structure Committed where
  signature : List Char
  active : Config

/-- The content of the file `WriteTo` makes of a commit. -/
def Committed.text (c : Committed) : Option (List Char) := c.active.string.map (c.signature ++ ·)

/-- The revision files, where the paths lead at the start, hold the last texts committed, whatever
the files were before and whatever is committed. -/
def KeepsHistory (start : D) (active : List Char) : Prop :=
  ∀ (file : D × List Char → Option (List Char)) (cs : List Committed) (texts : List (List Char)),
    cs.map Committed.text = texts.map some → ∀ k < min cs.length configRevisionMax,
      (texts.foldl (commit dirs active) { cwd := start, file }).file
        (locate dirs start (revision active k)) = texts.reverse[k]?

/-- The active file is the same one from `ConfigDir` as from the start, and its base names it in
`ConfigDir`. -/
def Follows (start : D) (active : List Char) : Prop :=
  let cwd := dirs.walk start configDir
  locate dirs start active = locate dirs cwd active ∧
    locate dirs cwd (base active) = locate dirs cwd active

instance (start : D) (active : List Char) : Decidable (Follows dirs start active) :=
  inferInstanceAs (Decidable (_ ∧ _))

end

/-! ## Names -/

theorem dirPart_append {path suffix : List Char} (h : '/' ∉ suffix) :
    dirPart (path ++ suffix) = dirPart path := by
  rw [dirPart, List.rdropWhile, List.reverse_append, List.dropWhile_append_of_pos fun c hc => ?_,
    dirPart, List.rdropWhile]
  simpa using fun heq : c = '/' => h (heq ▸ List.mem_reverse.mp hc)

theorem namePart_append {path suffix : List Char} (h : '/' ∉ suffix) :
    namePart (path ++ suffix) = namePart path ++ suffix := by
  rw [namePart, List.rtakeWhile, List.reverse_append, List.takeWhile_append_of_pos fun c hc => ?_,
    List.reverse_append, List.reverse_reverse, namePart, List.rtakeWhile]
  simpa using fun heq : c = '/' => h (heq ▸ List.mem_reverse.mp hc)

theorem slash_notMem_namePart (path : List Char) : '/' ∉ namePart path := by
  intro h
  have := List.mem_rtakeWhile_imp h
  simp at this

theorem dirPart_append_namePart (path : List Char) : dirPart path ++ namePart path = path :=
  List.rdropWhile_append_rtakeWhile

theorem slash_notMem_revision (rev : Nat) : '/' ∉ '.' :: (Nat.repr rev).toList := by
  rw [List.mem_cons, not_or]
  exact ⟨by decide, fun h => absurd (isDigit_of_mem_repr h) (by decide)⟩

/-- The number of a revision is the one its name ends with. -/
theorem revision_eq_zero {a b : List Char} {rev : Nat} (h : revision a rev = revision b 0) :
    rev = 0 ∧ a = b := by
  have hrev := congrArg List.reverse h
  simp only [revision, List.reverse_append, List.reverse_cons, List.append_assoc,
    List.singleton_append, show (Nat.repr 0).toList = ['0'] from rfl, List.reverse_nil,
    List.nil_append] at hrev
  -- The name ends with the digit after the dot, so the number has no other.
  have hdigit : ∀ c ∈ (Nat.repr rev).toList.reverse, c.isDigit = true := fun c hc =>
    isDigit_of_mem_repr (List.mem_reverse.mp hc)
  match hd : (Nat.repr rev).toList.reverse with
  | [] =>
    rw [hd] at hrev
    cases (List.cons.inj hrev).1
  | [c] =>
    rw [hd] at hrev
    obtain ⟨rfl, hrest⟩ := List.cons.inj hrev
    have hone : (Nat.repr rev).toList = (Nat.repr 0).toList := by
      rw [← List.reverse_reverse (Nat.repr rev).toList, hd]
      rfl
    exact ⟨repr_inj.mp (String.toList_inj.mp hone),
      List.reverse_injective (List.cons.inj hrest).2⟩
  | c :: c' :: cs =>
    rw [hd] at hrev hdigit
    have hc' : c' = '.' := (List.cons.inj (List.cons.inj hrev).2).1
    rw [hc'] at hdigit
    exact absurd (hdigit '.' (by simp)) (by decide)

section

variable {D : Type} (dirs : Directories D) {start cwd : D} {active : List Char}

/-- A revision file stands beside the file it is named after. -/
theorem locate_revision (cwd : D) (path : List Char) (rev : Nat) : locate dirs cwd (revision path rev) =
    ((locate dirs cwd path).1, revision (locate dirs cwd path).2 rev) := by
  have h := slash_notMem_revision rev
  rw [locate, revision, dirPart_append h, namePart_append h]
  rfl

theorem revision_injective (path : List Char) : (revision path).Injective := by
  intro rev rev' h
  have hrepr := (List.cons.inj (List.append_cancel_left h)).2
  exact repr_inj.mp (String.toList_inj.mp hrepr)

theorem locate_revision_injective (cwd : D) (path : List Char) :
    (fun rev => locate dirs cwd (revision path rev)).Injective := by
  intro rev rev' h
  simp only [locate_revision, Prod.mk.injEq, true_and] at h
  exact revision_injective _ h

section

variable [DecidableEq D]

/-- The run on the files alone: the renames and the write in `ConfigDir`. -/
theorem foldl_commit (texts : List (List Char)) (s : Disk D)
    (hcwd : dirs.walk s.cwd configDir = cwd) :
    (texts.foldl (commit dirs active) s).file =
      texts.foldl (Rotation.rotate (fun rev => locate dirs cwd (revision (base active) rev))
        (configRevisionMax - 1) (locate dirs cwd (revision active 0))) s.file := by
  induction texts generalizing s with
  | nil => rfl
  | cons text texts ih =>
    subst hcwd
    rw [List.foldl_cons, List.foldl_cons, ih _ (dirs.walk_abs _ _ configDir rfl)]
    rfl

theorem keepsHistory_of_follows (h : Follows dirs start active) : KeepsHistory dirs start active := by
  obtain ⟨hstart, hbase⟩ := h
  intro file cs texts htexts k hk
  have hlen : cs.length = texts.length := by simpa using congrArg List.length htexts
  have hnames : (fun rev => locate dirs (dirs.walk start configDir) (revision (base active) rev)) =
      fun rev => locate dirs start (revision active rev) := by
    funext rev
    rw [locate_revision, locate_revision, hbase, hstart]
  have hzero : locate dirs (dirs.walk start configDir) (revision active 0) =
      locate dirs start (revision active 0) := by
    rw [locate_revision, locate_revision, hstart]
  rw [foldl_commit dirs texts _ rfl, hnames, hzero]
  have hinj := locate_revision_injective dirs start active
  rw [hlen, configRevisionMax] at hk
  exact Rotation.rotate_run hinj texts file (by rw [configRevisionMax]; omega) (by omega)

/-- What two commits of the empty tree leave on a disk without files. -/
theorem follows_of_keepsHistory (h : KeepsHistory dirs start active) : Follows dirs start active := by
  have hrun (texts : List (List Char)) (k : Nat) (hk : k < min texts.length configRevisionMax) :
      texts.foldl (Rotation.rotate
        (fun rev => locate dirs (dirs.walk start configDir) (revision (base active) rev))
        (configRevisionMax - 1) (locate dirs (dirs.walk start configDir) (revision active 0)))
        (fun _ => none) (locate dirs start (revision active k)) = texts.reverse[k]? := by
    rw [← foldl_commit dirs texts { cwd := start, file := fun _ => none } rfl]
    refine h _ (texts.map fun text => ⟨text, {}⟩) texts ?_ k (by simpa using hk)
    rw [List.map_map]
    refine List.map_congr_left fun text _ => ?_
    simp [Committed.text, Config.string, Config.writeSlot]
  have hzero : locate dirs start (revision active 0) =
      locate dirs (dirs.walk start configDir) (revision active 0) := by
    by_contra hne
    have hone := hrun [[]] 0 (by decide)
    rw [List.foldl_cons, List.foldl_nil, Rotation.rotate, Rotation.write_of_ne hne,
      Rotation.shift_of_none fun _ _ => rfl] at hone
    cases hone
  have hsecond : locate dirs start (revision active 1) ≠
      locate dirs (dirs.walk start configDir) (revision active 0) := by
    rw [← hzero]
    exact (locate_revision_injective dirs start active).ne (by decide)
  -- The first text is still at the place it was written to unless that place is renamed.
  have hmoved : ∃ rev < configRevisionMax - 1,
      locate dirs (dirs.walk start configDir) (revision (base active) rev) =
        locate dirs (dirs.walk start configDir) (revision active 0) := by
    by_contra hnone
    have htwo := hrun [['1'], ['2']] 1 (by decide)
    rw [List.foldl_cons, List.foldl_cons, List.foldl_nil, Rotation.rotate,
      Rotation.write_of_ne hsecond, Rotation.rotate,
      Rotation.shift_of_none (f := fun _ => none) fun _ _ => rfl,
      Rotation.shift_of_none fun rev hrev =>
        Rotation.write_of_ne (fun heq => hnone ⟨rev, hrev, heq⟩) _,
      Rotation.write_of_ne hsecond] at htwo
    cases htwo
  obtain ⟨rev, -, hrev⟩ := hmoved
  rw [locate_revision, locate_revision, Prod.mk.injEq] at hrev hzero
  exact ⟨Prod.ext hzero.1 rfl, Prod.ext hrev.1 (revision_eq_zero hrev.2).2⟩

end

theorem isAbs_dirPart (h : isAbs active = true) : isAbs (dirPart active) = true := by
  have happ := dirPart_append_namePart active
  cases hd : dirPart active with
  | nil =>
    rw [hd, List.nil_append] at happ
    rw [isAbs, decide_eq_true_eq, ← happ] at h
    exact absurd (List.mem_of_head? h) (slash_notMem_namePart active)
  | cons c cs =>
    rw [hd] at happ
    rw [isAbs, decide_eq_true_eq, ← happ] at h
    exact decide_eq_true h

/-- A path without a slash at its end keeps its last name. -/
theorem base_of_namePart (h : namePart active ≠ []) : base active = namePart active := by
  have hne : active ≠ [] := by
    rintro rfl
    exact h rfl
  have hlast : active.getLast hne ≠ '/' := by
    intro heq
    exact h (List.rtakeWhile_eq_nil_iff.mpr fun _ => by simp [heq])
  have hself : active.rdropWhile (· = '/') = active :=
    List.rdropWhile_eq_self_iff.mpr fun _ => by simpa using hlast
  simp only [base, if_neg hne, hself, if_neg h]

/-- A name is looked up in the working directory. -/
theorem locate_namePart (cwd : D) : locate dirs cwd (namePart active) = (cwd, namePart active) := by
  have hdir : dirPart (namePart active) = [] := by
    refine List.rdropWhile_eq_nil_iff.mpr fun c hc => ?_
    simpa using fun heq : c = '/' => slash_notMem_namePart active (heq ▸ hc)
  have hname : namePart (namePart active) = namePart active := List.rtakeWhile_idempotent _ active
  rw [locate, hdir, hname, dirs.walk_nil]

/-- A path from the root names the same file everywhere. -/
theorem follows_absolute (habs : isAbs active = true) (hname : namePart active ≠ []) :
    Follows dirs start active ↔ dirs.walk start (dirPart active) = dirs.walk start configDir := by
  have hwalk := dirs.walk_abs start (dirs.walk start configDir) _ (isAbs_dirPart habs)
  rw [Follows, base_of_namePart hname, locate_namePart, locate, locate, ← hwalk]
  simp only [Prod.mk.injEq, and_true, true_and]
  exact eq_comm

end

/-- The revision files hold the last texts committed just if the active file is the same one from
`ConfigDir` as from the start of the daemon and its base names it in `ConfigDir`: for an absolute
path with a name, just if its directory is `ConfigDir`. -/
theorem rollback_history_iff {D : Type} [DecidableEq D] (dirs : Directories D) (start : D)
    (configFileDir configFile : List Char) :
    (KeepsHistory dirs start (configActiveFile configFileDir configFile) ↔
      Follows dirs start (configActiveFile configFileDir configFile)) ∧
    (isAbs (configActiveFile configFileDir configFile) = true →
      namePart (configActiveFile configFileDir configFile) ≠ [] →
      (KeepsHistory dirs start (configActiveFile configFileDir configFile) ↔
        dirs.walk start (dirPart (configActiveFile configFileDir configFile)) =
          dirs.walk start configDir)) := by
  have hiff : KeepsHistory dirs start (configActiveFile configFileDir configFile) ↔
      Follows dirs start (configActiveFile configFileDir configFile) :=
    ⟨follows_of_keepsHistory dirs, keepsHistory_of_follows dirs⟩
  exact ⟨hiff, fun habs hname => hiff.trans (follows_absolute dirs habs hname)⟩

/-- Directories as paths from the root, for paths without dots. -/
def plainDirectories : Directories (List Char) where
  walk d path :=
    if path = [] then d
    else
      let path := path.rdropWhile (· = '/')
      if isAbs path || path = [] then path else d ++ '/' :: path
  walk_nil d := rfl
  walk_abs d d' path h := by
    have hne : path ≠ [] := by
      rintro rfl
      cases h
    have hstrip : (isAbs (path.rdropWhile (· = '/')) || path.rdropWhile (· = '/') = []) = true := by
      rcases List.rdropWhile_prefix (· = '/') path with ⟨suffix, happ⟩
      cases hp : path.rdropWhile (· = '/') with
      | nil => rfl
      | cons c cs =>
        rw [hp] at happ
        rw [isAbs, decide_eq_true_eq, ← happ] at h
        rw [isAbs, decide_eq_true (show (c :: cs).head? = some '/' from h)]
        rfl
    simp only [if_neg hne, hstrip, if_true]

/-- The daemon with the option `-p /var/lib`: the second commit loses the text of the first. -/
theorem rollback_history_lost : ¬ KeepsHistory plainDirectories []
    (configActiveFile "/var/lib".toList "openconfigd.conf".toList) := by
  intro h
  exact absurd (follows_of_keepsHistory plainDirectories h) (by decide)

/-- The options the daemon has by default. -/
theorem rollback_history_iff_default : KeepsHistory plainDirectories []
    (configActiveFile "/usr/local/etc".toList "openconfigd.conf".toList) :=
  (rollback_history_iff plainDirectories [] "/usr/local/etc".toList "openconfigd.conf".toList).1.mpr
    (by decide)

end Rollback

end OpenConfigd
