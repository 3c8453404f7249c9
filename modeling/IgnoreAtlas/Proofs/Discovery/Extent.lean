import IgnoreAtlas.Proofs.Discovery.Search
import IgnoreAtlas.Proofs.Path.Settled
import IgnoreAtlas.Proofs.Rule.Growth
import IgnoreAtlas.Proofs.Workspace.Ownership
import Mathlib.Data.List.Induction
import Mathlib.Data.List.Sort

/-!
# How far a search looks

A search that follows no links looks at the directories *within reach* of its starting directories:
those that names lead to which are not skipped, through directories only, and not more names than
the settings allow. Of these it finds the ones that hold a work tree (`mem_roots_iff_found`), and it
finds all of them, whatever other starting directories there are and however they are spelled
(`roots_of_search`).

A starting directory within reach of another one adds what lies too deep for that one, and so
nothing where there is no bound.
-/

namespace IgnoreAtlas

namespace Utf8

/-- Bytes begin with one character only. -/
theorem eq_of_encode_singleton {c d : Char} {bytes : Bytes}
    (hc : encode (String.singleton c) <+: bytes) (hd : encode (String.singleton d) <+: bytes) :
    c = d := by
  have hdecode {c : Char} (h : encode (String.singleton c) <+: bytes) :
      ByteArray.utf8DecodeChar? ⟨bytes.toArray⟩ 0 = some c := by
    obtain ⟨rest, rfl⟩ := h
    have hbytes : (⟨(encode (String.singleton c) ++ rest).toArray⟩ : ByteArray) =
        (String.utf8EncodeChar c).toByteArray ++ ⟨rest.toArray⟩ := by
      apply ByteArray.ext
      simp [encode, String.toUTF8_eq_toByteArray, List.utf8Encode_singleton,
        List.data_toByteArray]
    rw [hbytes]
    exact ByteArray.utf8DecodeChar?_utf8EncodeChar_append
  exact Option.some.inj ((hdecode hc).symm.trans (hdecode hd))

/-- A text begins with a character when its bytes begin with those of the character. -/
theorem head?_eq_some_iff {bytes : Bytes} {text : String} {c : Char}
    (h : decode? bytes = some text) :
    text.toList.head? = some c ↔ encode (String.singleton c) <+: bytes := by
  refine ⟨prefix_of_decode? h, fun hc => ?_⟩
  cases hfirst : text.toList.head? with
  | some d => rw [eq_of_encode_singleton hc (prefix_of_decode? h hfirst)]
  | none =>
    have hempty : text = "" := String.toList_eq_nil_iff.mp (List.head?_eq_none_iff.mp hfirst)
    rw [← encode_of_decode? h, hempty] at hc
    have hnone : encode (String.singleton c) = encode "" := List.prefix_nil.mp hc
    have hsame := congrArg decode? hnone
    rw [decode?_encode, decode?_encode, Option.some_inj] at hsame
    exact absurd (congrArg String.toList hsame) (by simp)

end Utf8

namespace Discovery

variable {place : Place} {settings : DiscoverySettings} {stand next : Stand} {root : Path}
  {s : Location} {names more : List Name} {n : Name} {start : Path} {starts : List Path}

/-! ## Directories that are skipped -/

/-- A directory of that name is not looked into: its name is text, and it is `.git`, or one of the
names to skip, or it begins with a dot and hidden directories are left out. -/
def Skipped (settings : DiscoverySettings) (n : Name) : Prop :=
  ∃ text, Utf8.decode? n.bytes = some text ∧
    (text = ".git" ∨ text ∈ settings.skipNames ∨
      settings.scanHidden = false ∧ text.toList.head? = some '.')

theorem skips_iff : skips settings n = true ↔ Skipped settings n := by
  unfold skips Skipped
  cases htext : Utf8.decode? n.bytes with
  | none => simp
  | some text =>
    have hdot : text.toList.head? = some '.' ↔ n.bytes.head? = some dot := by
      rw [Utf8.head?_eq_some_iff htext, show Utf8.encode (String.singleton '.') = [dot] by decide]
      cases n.bytes <;> simp [List.prefix_cons_iff, eq_comm]
    simp [hdot, or_assoc]

/-! ## Directories within reach -/

/-- The names lead from a starting directory to one that the search looks at: there are not too many
of them, none of them is skipped, and they lead through directories. -/
structure Reaches (place : Place) (settings : DiscoverySettings) (s : Location)
    (names : List Name) : Prop where
  shallow : ∀ most, settings.maxDepth = some most → names.length ≤ most
  looked : ∀ n ∈ names, ¬Skipped settings n
  directories : ∀ above, above <+: names →
    ∃ inside, place.files.entry? (s ++ above) = some (.dir inside)

/-- One name more is within reach if that is not too deep, the name is not skipped, and it leads to a
directory. -/
theorem reaches_concat_iff :
    Reaches place settings s (names ++ [n]) ↔
      Reaches place settings s names ∧
        (∀ most, settings.maxDepth = some most → names.length < most) ∧ ¬Skipped settings n ∧
        ∃ inside, place.files.entry? (s ++ names ++ [n]) = some (.dir inside) := by
  have hlength : (names ++ [n]).length = names.length + 1 := List.length_append
  rw [List.append_assoc]
  constructor
  · intro h
    have hshallow (most : Nat) (hmost : settings.maxDepth = some most) : names.length < most := by
      have := h.shallow most hmost
      omega
    refine ⟨⟨fun most hmost => (hshallow most hmost).le, fun m hm => ?_, fun above habove => ?_⟩,
      hshallow, h.looked n (by simp), h.directories _ List.prefix_rfl⟩
    · exact h.looked m (List.mem_append_left _ hm)
    · exact h.directories above (habove.trans (List.prefix_append _ _))
  · rintro ⟨h, hshallow, hlooked, hdir⟩
    refine ⟨fun most hmost => ?_, fun m hm => ?_, fun above habove => ?_⟩
    · have := hshallow most hmost
      omega
    · rcases List.mem_append.mp hm with hm | hm
      · exact h.looked m hm
      · exact List.mem_singleton.mp hm ▸ hlooked
    · rcases List.prefix_concat_iff.mp habove with rfl | habove
      · exact hdir
      · exact h.directories above habove

/-- The search stands in the directory that the names lead to, with as many levels left. -/
structure Stand.At (settings : DiscoverySettings) (s : Location) (names : List Name)
    (stand : Stand) : Prop where
  location : stand.location = s ++ names
  path : stand.path = .ofLocation (s ++ names)
  levels : stand.levels = settings.maxDepth.map (· - names.length)

theorem Stand.at_first (s : Location) : (Stand.first settings s).At settings s [] where
  location := (List.append_nil s).symm
  path := congrArg Path.ofLocation (List.append_nil s).symm
  levels := by simp [Stand.first]

/-- There is a level below as long as there are fewer names than the bound. -/
theorem Stand.At.below_eq_some_iff (h : stand.At settings s names) {levels : Option Nat} :
    below stand.levels = some levels ↔
      (∀ most, settings.maxDepth = some most → names.length < most) ∧
        levels = settings.maxDepth.map (· - (names.length + 1)) := by
  rw [h.levels]
  cases settings.maxDepth with
  | none => simp [below, eq_comm]
  | some most =>
    cases hleft : most - names.length with
    | zero => simp [below, hleft, Nat.sub_eq_zero_iff_le.mp hleft]
    | succ left =>
      have hless : names.length < most := by omega
      have hnext : most - (names.length + 1) = left := by omega
      simp [below, hleft, hless, hnext, eq_comm]

/-- The search stands one name deeper when it has entered a directory. -/
theorem Stand.At.enter (h : stand.At settings s names) (n : Name) :
    (stand.enter n (stand.location ++ [n])
      (settings.maxDepth.map (· - (names.length + 1)))).At settings s (names ++ [n]) where
  location := by rw [Stand.enter, h.location, List.append_assoc]
  path := by rw [Stand.enter, h.path, Path.child_ofLocation, List.append_assoc]
  levels := by rw [Stand.enter, List.length_append, List.length_singleton]

/-- Where the search stands, it can be reached by names. -/
theorem exists_reaches_of_goes (hlinks : settings.followLinks = false)
    (hs : (place.files.listing? s).isSome)
    (h : Relation.ReflTransGen (Goes place settings) (.first settings s) stand) :
    ∃ names, Reaches place settings s names ∧ stand.At settings s names := by
  induction h with
  | refl =>
    obtain ⟨inside, hinside⟩ := Option.isSome_iff_exists.mp hs
    refine ⟨[], ⟨fun _ _ => Nat.zero_le _, nofun, fun above habove => ?_⟩, Stand.at_first s⟩
    rw [List.prefix_nil.mp habove, List.append_nil]
    exact ⟨inside, FileSystem.entry?_eq_dir_iff.mpr hinside⟩
  | tail _ hstep ih =>
    obtain ⟨names, hreach, hat⟩ := ih
    cases hstep with
    | @into _ inside n hl hfind hinto =>
      have hthere := listing_of_into hl hfind hinto
      obtain ⟨hskip, levels, hlevels, rfl⟩ := into?_eq_some_iff.mp hinto
      obtain ⟨hshallow, rfl⟩ := hat.below_eq_some_iff.mp hlevels
      simp only [Stand.enter, hat.location] at hthere
      have hlooked : ¬Skipped settings n := by
        rw [← skips_iff, hskip]
        exact Bool.false_ne_true
      exact ⟨names ++ [n], reaches_concat_iff.mpr ⟨hreach, hshallow, hlooked, inside,
        FileSystem.entry?_eq_dir_iff.mpr hthere⟩, hat.enter n⟩
    | through _ _ hthrough =>
      have hfollow := (through?_eq_some_iff.mp hthrough).1
      rw [hlinks] at hfollow
      cases hfollow

/-- Where names reach, the search comes to stand. -/
theorem exists_goes_of_reaches (h : Reaches place settings s names) :
    ∃ stand, Relation.ReflTransGen (Goes place settings) (.first settings s) stand ∧
      stand.At settings s names := by
  induction names using List.reverseRecOn with
  | nil => exact ⟨.first settings s, .refl, Stand.at_first s⟩
  | append_singleton names n ih =>
    obtain ⟨hbefore, hshallow, hlooked, inside, hinside⟩ := reaches_concat_iff.mp h
    obtain ⟨stand, hgoes, hat⟩ := ih hbefore
    obtain ⟨l, hl⟩ := hbefore.directories names List.prefix_rfl
    rw [FileSystem.entry?_eq_dir_iff] at hl
    rw [FileSystem.entry?_concat hl] at hinside
    rw [← hat.location] at hl
    have hskip : skips settings n = false := by rwa [← skips_iff, Bool.not_eq_true] at hlooked
    have hinto := into?_eq_some_iff.mpr ⟨hskip, _, hat.below_eq_some_iff.mpr ⟨hshallow, rfl⟩, rfl⟩
    exact ⟨_, hgoes.tail (.into hl hinside hinto), hat.enter n⟩

/-! ## What is found -/

/-- The directory holds something named `.git` and opens as a repository with files. -/
def HoldsWorkTree (place : Place) (dir : Path) : Prop :=
  place.exists? (dir.child .git) ∧ Repository.open? place dir = some .worktree

theorem isRoot_iff : isRoot place root ↔ HoldsWorkTree place root := by
  simp [isRoot, HoldsWorkTree]

/-- The paths lead to a directory at that location, among others. -/
def StartsAt (place : Place) (starts : List Path) (s : Location) : Prop :=
  (∃ start ∈ starts, place.files.resolve place.cwd start = .ok s) ∧
    ∃ inside, place.files.entry? s = some (.dir inside)

/-- The root is a directory within reach of a starting directory, and holds a work tree. -/
def Found (place : Place) (settings : DiscoverySettings) (starts : List Path)
    (root : Path) : Prop :=
  HoldsWorkTree place root ∧
    ∃ s, StartsAt place starts s ∧ ∃ names, Reaches place settings s names ∧
      root = .ofLocation (s ++ names)

/-- A search that follows no links finds what is within reach of its starting directories. -/
theorem mem_roots_iff_found (hlinks : settings.followLinks = false) :
    root ∈ (discover place settings starts).roots ↔ Found place settings starts root := by
  rw [mem_roots_discover_iff, isRoot_iff]
  refine and_congr_right fun _ => ?_
  constructor
  · rintro ⟨start, hstart, stand, ⟨s, hresolve, hs, hgoes⟩, rfl⟩
    obtain ⟨names, hreach, hat⟩ := exists_reaches_of_goes hlinks hs hgoes
    have hdir := hreach.directories [] List.nil_prefix
    rw [List.append_nil] at hdir
    exact ⟨s, ⟨⟨start, hstart, hresolve⟩, hdir⟩, names, hreach, hat.path⟩
  · rintro ⟨s, ⟨⟨start, hstart, hresolve⟩, inside, hinside⟩, names, hreach, rfl⟩
    obtain ⟨stand, hgoes, hat⟩ := exists_goes_of_reaches hreach
    have hs : (place.files.listing? s).isSome :=
      Option.isSome_of_eq_some (FileSystem.entry?_eq_dir_iff.mp hinside)
    exact ⟨start, hstart, stand, ⟨s, hresolve, hs, hgoes⟩, hat.path.symm⟩

/-! ## Several starting directories -/

theorem repositories_discover (place : Place) (settings : DiscoverySettings) (starts : List Path) :
    (discover place settings starts).repositories =
      (discover place settings starts).roots.map .ofRoot := by
  rw [RepositorySet.roots, List.map_map]
  refine (List.map_id _).symm.trans (List.map_congr_left fun r hr => ?_)
  obtain ⟨root, -, rfl⟩ := List.mem_map.mp (RepositorySet.mem_of_mem_ofList hr)
  rfl

theorem pairwise_roots (set : RepositorySet) : set.roots.Pairwise fun a b => a.key < b.key :=
  List.pairwise_map.mpr set.sorted

/-- A set is determined by the roots that are found. -/
theorem discover_congr {others : List Path}
    (h : ∀ root, root ∈ (discover place settings others).roots ↔
      root ∈ (discover place settings starts).roots) :
    discover place settings others = discover place settings starts := by
  have hirrefl : Std.Irrefl fun a b : Path => a.key < b.key := ⟨fun a => List.lt_irrefl a.key⟩
  have hroots : (discover place settings others).roots = (discover place settings starts).roots :=
    (pairwise_roots _).eq_of_mem_iff (pairwise_roots _) h
  have hrepositories := congrArg (List.map Repository.ofRoot) hroots
  rw [← repositories_discover, ← repositories_discover] at hrepositories
  rwa [RepositorySet.mk.injEq]

/-- What leads to no directory is passed over, and the search never stops: every other path has a
canonical one. -/
theorem rootsInTurn_eq (place : Place) (settings : DiscoverySettings) (starts : List Path) :
    rootsInTurn place settings starts = .ok (starts.flatMap (rootsFrom place settings)) := by
  induction starts with
  | nil => rfl
  | cons start starts ih =>
    rw [rootsInTurn, ih, List.flatMap_cons]
    by_cases hdir : place.isDir start
    · obtain ⟨s, -, hresolve, -⟩ := Place.isDir_iff.mp hdir
      have hexists : place.exists? start := Place.exists?_iff.mpr ⟨s, hresolve⟩
      simp only [hdir, hexists, hresolve]
      rfl
    · have hnone : rootsFrom place settings start = [] := by
        refine List.eq_nil_iff_forall_not_mem.mpr fun root hroot => hdir ?_
        obtain ⟨-, -, ⟨s, hresolve, hs, -⟩, -⟩ := mem_rootsFrom_iff.mp hroot
        obtain ⟨inside, hinside⟩ := Option.isSome_iff_exists.mp hs
        exact Place.isDir_iff.mpr ⟨s, inside, hresolve, hinside⟩
      rw [hnone, Bool.eq_false_iff.mpr hdir]
      simp

theorem search_eq (place : Place) (settings : DiscoverySettings) (starts : List Path) :
    search place settings starts = .ok (discover place settings starts) := by
  rw [search, rootsInTurn_eq]
  rfl

/-- What one path finds it finds whatever other paths are listed. -/
theorem found_append_iff {others : List Path} :
    Found place settings (starts ++ others) root ↔
      Found place settings starts root ∨ Found place settings others root := by
  have hstarts (s : Location) :
      StartsAt place (starts ++ others) s ↔ StartsAt place starts s ∨ StartsAt place others s := by
    simp only [StartsAt, List.mem_append, or_and_right, exists_or]
  simp only [Found, hstarts, or_and_right, exists_or, and_or_left]

/-- A directory within reach of one within reach is so itself where there is no bound. -/
theorem Reaches.append (h : Reaches place settings s names) (hbound : settings.maxDepth = none)
    (hmore : Reaches place settings (s ++ names) more) :
    Reaches place settings s (names ++ more) where
  shallow := by simp [hbound]
  looked n hn := (List.mem_append.mp hn).elim (h.looked n) (hmore.looked n)
  directories above habove := by
    rcases List.prefix_or_prefix_of_prefix habove (List.prefix_append names more) with
      hshort | ⟨rest, rfl⟩
    · exact h.directories above hshort
    · rw [← List.append_assoc]
      exact hmore.directories rest ((List.prefix_append_right_inj names).mp habove)

/-- So a path to a directory within reach finds nothing more there. -/
theorem Found.of_reaches (h : Found place settings [start] root) (hbound : settings.maxDepth = none)
    (hs : StartsAt place starts s) (hreach : Reaches place settings s names)
    (hstart : place.files.resolve place.cwd start = .ok (s ++ names)) :
    Found place settings starts root := by
  obtain ⟨hroot, t, ⟨⟨start', hmem, hresolve⟩, -⟩, more, hmore, rfl⟩ := h
  obtain rfl := List.mem_singleton.mp hmem
  obtain rfl : s ++ names = t := Except.ok.inj (hstart.symm.trans hresolve)
  exact ⟨hroot, s, hs, names ++ more, hreach.append hbound hmore, by rw [List.append_assoc]⟩

/-- The search never fails, and finds the directories within reach of its starting directories that
hold a work tree, sorted and each once. In which order the paths are listed, how often and in which
spelling makes no difference, nor do other paths take anything from what one path finds; and where
there is no bound, a path to a directory within reach of another one adds nothing. -/
theorem roots_of_search (hlinks : settings.followLinks = false) (place : Place)
    (starts : List Path) :
    let found := discover place settings starts
    search place settings starts = .ok found ∧
    (∀ root, root ∈ found.roots ↔ Found place settings starts root) ∧
    (found.roots.Pairwise fun a b => a.key < b.key) ∧ found.roots.Nodup ∧
    (∀ others, (∀ s, StartsAt place others s ↔ StartsAt place starts s) →
      discover place settings others = found) ∧
    (∀ others root, root ∈ (discover place settings (starts ++ others)).roots ↔
      root ∈ found.roots ∨ root ∈ (discover place settings others).roots) ∧
    (∀ start s names, settings.maxDepth = none → StartsAt place starts s →
      Reaches place settings s names → place.files.resolve place.cwd start = .ok (s ++ names) →
        discover place settings (start :: starts) = found) := by
  intro found
  refine ⟨search_eq place settings starts, fun _ => mem_roots_iff_found hlinks,
    pairwise_roots found, ?_, ?_, ?_, ?_⟩
  · refine (pairwise_roots found).imp fun hlt heq => ?_
    rw [heq] at hlt
    exact List.lt_irrefl _ hlt
  · intro others hsame
    refine discover_congr fun root => ?_
    simp only [mem_roots_iff_found hlinks, Found, hsame]
  · intro others root
    simp only [found, mem_roots_iff_found hlinks, found_append_iff]
  · intro start s names hbound hs hreach hstart
    refine discover_congr fun root => ?_
    rw [mem_roots_iff_found hlinks, mem_roots_iff_found hlinks, ← List.singleton_append,
      found_append_iff, or_iff_right_iff_imp]
    exact fun hfound => hfound.of_reaches hbound hs hreach hstart

/-! ## Repositories inside one another -/

/-- Four repositories, one inside the other, and two more beside the second: one in a directory that
is to be skipped, the other in a hidden one. -/
def grovePlace : Place where
  files :=
    { top := .dir (.spell "grove")
        (.dir (.spell "oak")
          (.dir .git Workspace.gitListing <|
            .dir (.spell "chaff") (.dir .git Workspace.gitListing .empty) <|
            .dir (.spell ".shade") (.dir .git Workspace.gitListing .empty) <|
            .dir (.spell "bough")
              (.dir .git Workspace.gitListing <|
                .dir (.spell "nest")
                  (.dir (.spell "egg") (.dir .git Workspace.gitListing <|
                    .dir (.spell "shell") (.dir .git Workspace.gitListing .empty) .empty)
                  .empty) .empty) .empty) .empty) .empty
      distinct := by decide +kernel }
  cwd := []
  home := .ofString "/home"

/-- Two levels, without hidden directories. -/
def groveSettings : DiscoverySettings := { maxDepth := some 2, skipNames := ["chaff"] }

/-- A directory, one inside of it, and nothing. -/
def grovePaths : List Path :=
  [.ofString "/grove", .ofString "/grove/./oak//bough", .ofString "/mist"]

def groveSet : RepositorySet where
  repositories := [.ofRoot (.ofString "/grove/oak"), .ofRoot (.ofString "/grove/oak/bough"),
    .ofRoot (.ofString "/grove/oak/bough/nest/egg")]
  sorted := by decide +kernel

/-- The second repository is come to from both directories, and the last from the inner one only. -/
theorem discover_grovePlace : discover grovePlace groveSettings grovePaths = groveSet := by
  have hroots : (grovePaths.flatMap (rootsFrom grovePlace groveSettings)).map Repository.ofRoot =
      [.ofRoot (.ofString "/grove/oak"), .ofRoot (.ofString "/grove/oak/bough"),
        .ofRoot (.ofString "/grove/oak/bough"),
        .ofRoot (.ofString "/grove/oak/bough/nest/egg")] := by
    decide +kernel
  rw [discover, hroots, RepositorySet.ofList, groveSet, RepositorySet.mk.injEq,
    List.mergeSort_of_pairwise (by decide +kernel)]
  decide +kernel

/-- Listed in another order, and twice, the paths find the same. -/
theorem roots_of_search_grovePlace :
    groveSettings.followLinks = false ∧
      search grovePlace groveSettings grovePaths = .ok groveSet ∧
      (∀ root, root ∈ groveSet.roots ↔ Found grovePlace groveSettings grovePaths root) ∧
      discover grovePlace groveSettings (grovePaths ++ grovePaths.reverse) = groveSet := by
  have hlinks : groveSettings.followLinks = false := rfl
  obtain ⟨hsearch, hfound, -, -, hsame, -⟩ := roots_of_search hlinks grovePlace grovePaths
  rw [discover_grovePlace] at hsearch hfound hsame
  refine ⟨hlinks, hsearch, hfound, hsame _ fun s => ?_⟩
  simp only [StartsAt, List.mem_append, List.mem_reverse, or_self]

end Discovery

end IgnoreAtlas
