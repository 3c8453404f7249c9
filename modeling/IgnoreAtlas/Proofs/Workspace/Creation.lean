import IgnoreAtlas.Proofs.Path.Creation
import IgnoreAtlas.Proofs.Workspace.Addition

/-!
# Files that are added before they exist

A file can be added first and created afterwards. It is found then if its normal spelling was from
the beginning that of the file to come, and this says when that is so (`creation_after`).

What is in the way is a `..` behind a link: for a file that does not exist it takes back the link's
name, for a file that does it leads to the directory above where the link leads. The file is lost
then (`lost_in_yardPlace`).
-/

namespace IgnoreAtlas

namespace Place

variable {place : Place} {p q : Path} {above : Location} {n : Name} {content : Content}
  {files : FileSystem}

/-- The path of a file to come is its own normal spelling before the file exists. -/
theorem NamesNew.normalize_self (h : place.NamesNew p q above n) :
    place.normalize (.ofLocation (above ++ [n])) = .ofLocation (above ++ [n]) := by
  obtain ⟨inside, hinside⟩ := Option.isSome_iff_exists.mp h.directory
  have hmissing := h.missing
  rw [FileSystem.entry?_concat hinside] at hmissing
  refine (settled_concat (settled_of_real (FileSystem.real_of_listing? hinside)) ?_).normalize_eq
  intro found hfound
  obtain ⟨e, he⟩ := FileSystem.exists_find?_of_resolve hinside hfound
  rw [hmissing] at he
  cases he

/-- And so it is when the file exists. -/
theorem NamesNew.normalize_self_write (h : place.NamesNew p q above n)
    (hwrite : place.files.write place.cwd p content = .ok files) :
    { place with files := files }.normalize (.ofLocation (above ++ [n])) =
      .ofLocation (above ++ [n]) :=
  (settled_of_real (FileSystem.real_of_resolve (h.write_eq hwrite).2)).normalize_eq

end Place

namespace Workspace

variable {set : RepositorySet} {settings : TrackerSettings} {workspace : Workspace} {place : Place}
  {p q : Path} {above : Location} {n : Name}

/-- How a file that does not exist yet is spelled, before and after it is created, and when it is
ignored after it was added. Its directory is at `above`, where the path `q` leads. -/
theorem creation_after {opened : Settings} {starts : List Path}
    (hopen : openAt place opened starts = .ok workspace) (run : List (Place × Request))
    {view : Place} (hnew : view.NamesNew p q above n) :
    let now := workspace.after run
    (view.normalize p = .ofLocation (above ++ [n]) ↔
      view.normalize (.ofLocation (Place.clean q.components)) = .ofLocation above) ∧
    (.up ∉ q.components →
      view.normalize (.ofLocation (Place.clean q.components)) = .ofLocation above) ∧
    ∀ content files, view.files.write view.cwd p content = .ok files →
      let later := { view with files := files }
      later.normalize p = .ofLocation (above ++ [n]) ∧
      ∀ r, now.Takes view p r →
        ((now.perform view (.add p)).ignores later p ↔ now.ignores later p ∨
          now.ownerOf? later p = some r ∧ (later.normalize p).startsWith (view.normalize p)) ∧
        (view.normalize p = later.normalize p → (now.perform view (.add p)).ignores later p) := by
  have hnow := (fits_of_openAt hopen).after run
  have hspelled : ∀ r ∈ (Discovery.discover place opened.discovery starts).roots,
      ∃ names, r = .ofLocation names := fun _ => Discovery.exists_path_of_mem_roots
  refine ⟨hnew.normalize_iff, hnew.normalize_clean, ?_⟩
  intro content files hwrite later
  have hlater : later.normalize p = .ofLocation (above ++ [n]) := hnew.normalize_write hwrite
  refine ⟨hlater, ?_⟩
  intro r htakes
  have hignores : ((workspace.after run).perform view (.add p)).ignores later p ↔
      (workspace.after run).ignores later p ∨
        (workspace.after run).ownerOf? later p = some r ∧
          (later.normalize p).startsWith (view.normalize p) := by
    rw [hnow.ignores_perform_add hspelled]
    refine or_congr_right ⟨?_, fun h => ⟨r, htakes, h⟩⟩
    rintro ⟨r', htakes', h⟩
    obtain rfl : r' = r := Option.some.inj (htakes'.owner.symm.trans htakes.owner)
    exact h
  refine ⟨hignores, ?_⟩
  intro hsame
  rw [hignores]
  refine .inr ⟨?_, hsame ▸ Path.startsWith_self _⟩
  -- The file is resolved by its normal spelling spelled once more, which stays in both places.
  have howner := htakes.owner
  rw [hnow.ownerOf?_eq_some_iff] at howner ⊢
  rw [RepositorySet.rootOf?, hsame, hlater, hnew.normalize_self] at howner
  rw [RepositorySet.rootOf?, hlater, hnew.normalize_self_write hwrite]
  exact howner

/-- A repository `/yard`, in which the link `/yard/east/lane` leads to the directory
`/yard/west/pond`. -/
def yardPlace : Place where
  files :=
    { top := .dir (.spell "yard")
        (.dir .git gitListing <|
          .dir (.spell "east") (.link (.spell "lane") (.ofString "/yard/west/pond") .empty) <|
          .dir (.spell "west") (.dir (.spell "pond") .empty .empty) .empty) .empty
      distinct := by decide +kernel }
  cwd := []
  home := .ofString "/home"

def yardSettings : Settings := .default (.ofString "/home")

def yardSet : RepositorySet where
  repositories := [.ofRoot (.ofString "/yard")]
  sorted := by decide +kernel

theorem discover_yardPlace :
    Discovery.discover yardPlace yardSettings.discovery [.ofString "/yard"] = yardSet :=
  Discovery.discover_eq (by decide +kernel)

/-- One file in two spellings, past the directory `pond` and past the link to it. -/
theorem namesNew_yardPlace :
    yardPlace.NamesNew (.ofString "/yard/west/pond/../moss") (.ofString "/yard/west/pond/..")
        [.spell "yard", .spell "west"] (.spell "moss") ∧
      yardPlace.NamesNew (.ofString "/yard/east/lane/../moss") (.ofString "/yard/east/lane/..")
        [.spell "yard", .spell "west"] (.spell "moss") := by
  constructor <;> constructor <;> decide +kernel

/-- The file can be created in either spelling. -/
theorem exists_write_yardPlace (p : Path)
    (h : p ∈ [.ofString "/yard/west/pond/../moss", .ofString "/yard/east/lane/../moss"]) :
    ∃ files, yardPlace.files.write yardPlace.cwd p (.literal []) = .ok files := by
  have hall : ∀ p ∈ [Path.ofString "/yard/west/pond/../moss", .ofString "/yard/east/lane/../moss"],
      (yardPlace.files.write yardPlace.cwd p (.literal [])).isOk := by decide +kernel
  have hok := hall p h
  cases hwrite : yardPlace.files.write yardPlace.cwd p (.literal []) with
  | ok files => exact ⟨files, rfl⟩
  | error fault =>
    rw [hwrite] at hok
    cases hok

/-- Past the directory the file is found when it was added before it was created. -/
theorem creation_after_yardPlace :
    ∃ workspace files, openAt yardPlace yardSettings [.ofString "/yard"] = .ok workspace ∧
      yardPlace.files.write yardPlace.cwd (.ofString "/yard/west/pond/../moss") (.literal []) =
        .ok files ∧
      (workspace.perform yardPlace (.add (.ofString "/yard/west/pond/../moss"))).ignores
        { yardPlace with files := files } (.ofString "/yard/west/pond/../moss") := by
  obtain ⟨workspace, hopen⟩ := exists_openAt yardPlace yardSettings [.ofString "/yard"]
  obtain ⟨files, hwrite⟩ := exists_write_yardPlace _ List.mem_cons_self
  have hrepositories : workspace.holder.repositories = yardSet.repositories :=
    (repositories_after hopen [] nofun).trans (congrArg _ discover_yardPlace)
  have hfits := fits_of_openAt hopen
  rw [discover_yardPlace] at hfits
  have howner : workspace.ownerOf? yardPlace (.ofString "/yard/west/pond/../moss") =
      some (.ofRoot (.ofString "/yard")) := by
    rw [hfits.ownerOf?_eq_some_iff, hrepositories]
    decide +kernel
  have htakes : workspace.Takes yardPlace (.ofString "/yard/west/pond/../moss")
      (.ofRoot (.ofString "/yard")) := ⟨howner, by decide +kernel, by decide +kernel⟩
  obtain ⟨-, -, hlater⟩ := creation_after hopen [] namesNew_yardPlace.1
  obtain ⟨hnormal, hfound⟩ := hlater _ files hwrite
  refine ⟨workspace, files, hopen, hwrite, (hfound _ htakes).2 ?_⟩
  rw [hnormal]
  decide +kernel

/-- Past the link it is spelled as a file of another directory until it exists. It is ignored when it
has been added, and no longer when it has been created. -/
theorem lost_in_yardPlace :
    yardPlace.NamesNew (.ofString "/yard/east/lane/../moss") (.ofString "/yard/east/lane/..")
        [.spell "yard", .spell "west"] (.spell "moss") ∧
      yardPlace.normalize (.ofString "/yard/east/lane/../moss") = .ofString "/yard/east/moss" ∧
      ∃ workspace files, openAt yardPlace yardSettings [.ofString "/yard"] = .ok workspace ∧
        yardPlace.files.write yardPlace.cwd (.ofString "/yard/east/lane/../moss") (.literal []) =
          .ok files ∧
        { yardPlace with files := files }.normalize (.ofString "/yard/east/lane/../moss") =
          .ofString "/yard/west/moss" ∧
        (workspace.perform yardPlace (.add (.ofString "/yard/east/lane/../moss"))).ignores
          yardPlace (.ofString "/yard/east/lane/../moss") ∧
        ¬(workspace.perform yardPlace (.add (.ofString "/yard/east/lane/../moss"))).ignores
          { yardPlace with files := files } (.ofString "/yard/east/lane/../moss") := by
  have hresult : (ofRepositories yardPlace yardSettings.tracker yardSet).toOption.any
      fun workspace =>
        let next := workspace.perform yardPlace (.add (.ofString "/yard/east/lane/../moss"))
        next.ignores yardPlace (.ofString "/yard/east/lane/../moss") &&
          (yardPlace.files.write yardPlace.cwd (.ofString "/yard/east/lane/../moss")
            (.literal [])).toOption.any fun files =>
              !next.ignores { yardPlace with files := files }
                (.ofString "/yard/east/lane/../moss") := by
    decide +kernel
  obtain ⟨workspace, hopen⟩ := exists_openAt yardPlace yardSettings [.ofString "/yard"]
  obtain ⟨files, hwrite⟩ :=
    exists_write_yardPlace (.ofString "/yard/east/lane/../moss") (by simp)
  have hlater := namesNew_yardPlace.2.normalize_write hwrite
  refine ⟨namesNew_yardPlace.2, by decide +kernel, workspace, files, hopen, hwrite, ?_⟩
  rw [openAt, discover_yardPlace] at hopen
  rw [hopen, hwrite] at hresult
  obtain ⟨hbefore, hafter⟩ := (Bool.and_eq_true ..).mp hresult
  refine ⟨?_, hbefore, ?_⟩
  · rw [hlater]
    decide +kernel
  · rw [Bool.not_eq_true]
    exact (Bool.not_eq_true' _).mp hafter

end Workspace

end IgnoreAtlas
