import Simmer.Volume.Stored
import Simmer.Proofs.Outcome
import Simmer.Proofs.Printing.Settings

/-!
A write and what is found afterwards. Putting a node where no directory stands leaves every
directory a directory, so a walk that led somewhere still leads there. Therefore a path at which
a file was written leads to that file, and settings that were saved are loaded as they were.
-/
namespace Simmer

namespace Node

variable {new node child : Node} {entries : List (String × Node)} {dir place rest : List String}
  {name other : String}

theorem below?_append (dir rest : List String) (node : Node) :
    below? (dir ++ rest) node = (below? dir node).bind (below? rest) := by
  induction dir generalizing node with
  | nil => rfl
  | cons name dir ih =>
    cases node with
    | directory entries =>
      simp only [List.cons_append, below?, Option.bind_assoc]
      exact congrArg _ (funext fun child => ih child)
    | file content => rfl
    | undecodable => rfl

/-- What stands beside a changed entry stands there still. -/
theorem lookup_changed (changed : Node) (h : other ≠ name) :
    ((name, changed) :: entries.filter (·.1 ≠ name)).lookup other = entries.lookup other := by
  have hother : (other == name) = false := beq_eq_false_iff_ne.mpr h
  rw [List.lookup_cons, hother]
  show (entries.filter (·.1 ≠ name)).lookup other = _
  induction entries with
  | nil => rfl
  | cons entry entries ih =>
    rw [List.lookup_cons, ← ih]
    by_cases hname : entry.1 = name
    · simp [hname, hother]
    · rw [List.filter_cons_of_pos (by simpa using hname), List.lookup_cons]

/-- A node put further down is put below whatever stands on the way. -/
theorem below?_put_append (h : below? dir node = some child) :
    below? dir (put new (dir ++ rest) node) = some (put new rest child) := by
  induction dir generalizing node with
  | nil =>
    obtain rfl := Option.some.inj h
    rfl
  | cons name dir ih =>
    cases node with
    | directory entries =>
      obtain ⟨next, hnext, hchild⟩ := Option.bind_eq_some_iff.mp h
      simpa [put, below?, hnext] using ih hchild
    | file content => cases h
    | undecodable => cases h

theorem below?_put_child (h : below? dir node = some (directory entries)) :
    below? (dir ++ [name]) (put new (dir ++ [name]) node) = some new := by
  rw [below?_append, below?_put_append h]
  simp [put, below?]

/-- A node that stands where no directory stood leaves all directories. -/
theorem isDirectory_below?_put (hplace : ¬ (below? place node).any isDirectory)
    (h : (below? dir node).any isDirectory) :
    (below? dir (put new place node)).any isDirectory := by
  induction place generalizing dir node with
  | nil =>
    cases dir with
    | nil => exact absurd h hplace
    | cons name dir =>
      cases node with
      | directory entries => exact absurd rfl hplace
      | file content => cases h
      | undecodable => cases h
  | cons name place ih =>
    cases node with
    | directory entries =>
      cases dir with
      | nil => rfl
      | cons other dir =>
        by_cases hname : other = name
        · subst hname
          cases hchild : entries.lookup other with
          | none => simp [below?, hchild] at h
          | some child =>
            simp only [below?, hchild, Option.bind_some] at h hplace
            simpa [put, below?, hchild] using ih hplace h
        · simpa only [put, below?, lookup_changed _ hname] using h
    | file content => exact h
    | undecodable => exact h

end Node

namespace Volume

variable {v w : Volume} {dir here place : List String} {name path content : String}
  {node : Node} {steps : List Path.Step}

theorem home_put (v : Volume) (place : List String) (node : Node) :
    (v.put place node).home = v.home := by
  unfold put
  split <;> rfl

/-- Below the root, a put changes the root directory as it changes any other. -/
theorem node?_put (v : Volume) (node : Node) (h : place ≠ []) (here : List String) :
    (v.put place node).node? here = Node.below? here (.put node place (.directory v.entries)) := by
  obtain ⟨name, rest, rfl⟩ := List.exists_cons_of_ne_nil h
  rfl

theorem isDirectory_nil (v : Volume) : v.isDirectory [] = true :=
  rfl

theorem isDirectory_iff :
    v.isDirectory dir = true ↔ ∃ entries, v.node? dir = some (.directory entries) := by
  rw [isDirectory, Option.any_eq_true]
  constructor
  · intro h
    obtain ⟨node, hnode, hdir⟩ := h
    cases node with
    | directory entries => exact ⟨entries, hnode⟩
    | file content => cases hdir
    | undecodable => cases hdir
  · intro h
    obtain ⟨entries, hnode⟩ := h
    exact ⟨_, hnode, rfl⟩

theorem isDirectory_dropLast (h : v.isDirectory dir = true) :
    v.isDirectory dir.dropLast = true := by
  rcases List.eq_nil_or_concat' dir with rfl | ⟨above, name, rfl⟩
  · exact h
  · obtain ⟨entries, hnode⟩ := isDirectory_iff.mp h
    rw [node?, Node.below?_append, Option.bind_eq_some_iff] at hnode
    obtain ⟨parent, hparent, hchild⟩ := hnode
    rw [List.dropLast_concat]
    cases parent with
    | directory others => exact isDirectory_iff.mpr ⟨others, hparent⟩
    | file content => cases hchild
    | undecodable => cases hchild

theorem isDirectory_put (hplace : ¬ v.isDirectory place = true)
    (h : v.isDirectory dir = true) : (v.put place node).isDirectory dir = true := by
  have hroot : place ≠ [] := fun hnil => hplace (hnil ▸ v.isDirectory_nil)
  rw [isDirectory, node?_put v node hroot]
  exact Node.isDirectory_below?_put hplace h

theorem node?_put_child (h : v.isDirectory dir = true) :
    (v.put (dir ++ [name]) node).node? (dir ++ [name]) = some node := by
  obtain ⟨entries, hnode⟩ := isDirectory_iff.mp h
  rw [node?_put v node (by simp)]
  exact Node.below?_put_child hnode

theorem locate?_cons_eq_some_iff {step : Path.Step} :
    v.locate? here (step :: steps) = some place ↔ v.isDirectory here = true ∧ step.fits = true ∧
      v.locate? (step.lead here) steps = some place := by
  simp [locate?, and_assoc]

theorem place?_eq_some_iff : v.place? path = some place ↔
    Path.isUsable (v.absolute path) = true ∧
      v.locate? [] (Path.steps (v.absolute path)) = some place := by
  simp [place?]

/-- A walk leads to the same place while its directories stay. -/
theorem locate?_of_directories (hkeep : ∀ dir, v.isDirectory dir = true → w.isDirectory dir = true)
    (h : v.locate? here steps = some place) : w.locate? here steps = some place := by
  induction steps generalizing here with
  | nil => exact h
  | cons step steps ih =>
    obtain ⟨hhere, hfits, hrest⟩ := locate?_cons_eq_some_iff.mp h
    exact locate?_cons_eq_some_iff.mpr ⟨hkeep here hhere, hfits, ih hrest⟩

theorem place?_of_directories (hhome : w.home = v.home)
    (hkeep : ∀ dir, v.isDirectory dir = true → w.isDirectory dir = true)
    (h : v.place? path = some place) : w.place? path = some place := by
  have hwhole : w.absolute path = v.absolute path := by
    rw [absolute, absolute, hhome]
  obtain ⟨husable, hwalk⟩ := place?_eq_some_iff.mp h
  rw [place?_eq_some_iff, hwhole]
  exact ⟨husable, locate?_of_directories hkeep hwalk⟩

/-- A directory, or what a directory may have an entry for. -/
def Reachable (v : Volume) (place : List String) : Prop :=
  v.isDirectory place = true ∨ ∃ dir name, v.isDirectory dir = true ∧ place = dir ++ [name]

theorem reachable_lead (h : v.isDirectory here = true) (step : Path.Step) :
    v.Reachable (step.lead here) := by
  cases step with
  | stay => exact Or.inl h
  | up => exact Or.inl (isDirectory_dropLast h)
  | down name => exact Or.inr ⟨here, name, h, rfl⟩

theorem reachable_of_locate? (hhere : v.Reachable here) (h : v.locate? here steps = some place) :
    v.Reachable place := by
  induction steps generalizing here with
  | nil =>
    obtain rfl := Option.some.inj h
    exact hhere
  | cons step steps ih =>
    obtain ⟨hdir, -, hrest⟩ := locate?_cons_eq_some_iff.mp h
    exact ih (reachable_lead hdir step) hrest

/-- A path leads to a directory or to a name in one. -/
theorem reachable_of_place? (h : v.place? path = some place) : v.Reachable place :=
  reachable_of_locate? (Or.inl v.isDirectory_nil) (place?_eq_some_iff.mp h).2

/-- A write puts a file at the place of its path, where no directory stands. -/
theorem exists_place_of_write? (h : v.write? path content = some w) :
    ∃ place, v.place? path = some place ∧ ¬ v.isDirectory place = true ∧
      w = v.put place (.file content) := by
  unfold write? at h
  split at h
  case h_1 name place hstep hplace =>
    split at h
    case isTrue => cases h
    case isFalse hdir => exact ⟨place, hplace, hdir, (Option.some.inj h).symm⟩
  case h_2 => cases h

/-- After a write, the path leads to a file with what was written. -/
theorem find?_of_write? (h : v.write? path content = some w) :
    w.find? path = some (.file content) := by
  obtain ⟨place, hplace, hdir, rfl⟩ := exists_place_of_write? h
  have hafter : (v.put place (.file content)).place? path = some place :=
    place?_of_directories (home_put ..) (fun _ => isDirectory_put hdir) hplace
  rw [find?, hafter, Option.bind_some]
  rcases reachable_of_place? hplace with hplace | ⟨dir, name, hparent, rfl⟩
  · exact absurd hplace hdir
  · exact node?_put_child hparent

theorem exists_write?_of_writeSettings {json : Json.Library} {s : Settings}
    (h : v.writeSettings json path s = .ok w) :
    ∃ ready, v.withParent path = .ok ready ∧ ready.write? path (s.write json) = some w := by
  obtain ⟨ready, hready, hwrite⟩ := Outcome.bind_eq_ok_iff.mp h
  refine ⟨ready, hready, ?_⟩
  split at hwrite
  case h_1 written hwritten => exact (Except.ok.inj hwrite) ▸ hwritten
  case h_2 => cases hwrite

/-- Under every library that does what is relied on, settings are read back from their text, and
from wherever they were written on a volume. -/
theorem settings_come_back (json : Json.Library) (h : json.Lawful) :
    (∀ s : Settings, Settings.read json (s.write json) = .ok s) ∧
      ∀ (v w : Volume) (path : String) (s : Settings),
        v.writeSettings json path s = .ok w → w.readSettings json path = .ok s := by
  refine ⟨Settings.read_write h, fun v w path s hsave => ?_⟩
  obtain ⟨ready, -, hwrite⟩ := exists_write?_of_writeSettings hsave
  rw [readSettings, find?_of_write? hwrite]
  simp only [Node.text?]
  exact Outcome.mapError_eq_ok_iff.mpr (Settings.read_write h s)

/-- The library at hand, and the greatest cap, saved in a directory that has to be made for it. -/
theorem settings_come_back_nested :
    Json.standard.Lawful ∧
      ∃ w, (opened ["home"]).saveSettings "nested/mixrule.json" ⟨18446744073709551615, .trace⟩ =
          .ok w ∧
        w.loadSettings "nested/mixrule.json" = .ok ⟨18446744073709551615, .trace⟩ := by
  have hsaved : ((opened ["home"]).saveSettings "nested/mixrule.json"
      ⟨18446744073709551615, .trace⟩).isOk = true := by
    decide +kernel
  refine ⟨Json.standard_lawful, ?_⟩
  cases hsave : (opened ["home"]).saveSettings "nested/mixrule.json"
      ⟨18446744073709551615, .trace⟩ with
  | error fault => cases hsave ▸ hsaved
  | ok w => exact ⟨w, rfl, (settings_come_back _ Json.standard_lawful).2 _ _ _ _ hsave⟩

end Volume

end Simmer
