/-
  `get_path` stays beneath `app.root`.

  `verify_url` compares two texts that `realpath` returned: one must be a prefix of the other,
  which ends there or goes on with a slash. `Canonical` says what these texts are: canonical
  paths, written out.

  * `verifyUrl_eq_false_iff`: the test, as a test on texts.
  * `getPath_confined`: what is served with code 200 is a file whose canonical path has the
    components of the canonical root as a prefix.
  * `handleAlias_confined`: the same for the target of an alias.
  * `nothing_refused_iff`: what is beneath the root is let through, unless the root is `/`.
-/
import Foxtails.Lib.Path
import Foxtails.Serve.Fetch

namespace Foxtails.Serve

open Foxtails.Lib.Scan Foxtails.Lib.Libc Foxtails.Lib.Path Foxtails.Wire

abbrev SLASH : Byte := 47

/-! ## Canonical paths -/

/-- A name on a canonical path: a component other than `.` and `..`, without NUL. -/
structure IsName (c : Bytes) : Prop where
  component : IsComponent SLASH c
  nul : NUL ∉ c
  dot : c ≠ ascii "."
  dotdot : c ≠ ascii ".."

/-- `canon` takes a path to its canonical path, with links, `.` and `..` resolved, and `file`
    is what is there: `realpath` writes that path out, `open` opens what it leads to. Either
    may fail on any path. -/
structure Canonical (fs : FileSystem) (canon : Bytes → Option (List Bytes))
    (file : List Bytes → Option OpenFile) : Prop where
  isName : ∀ p cs, canon p = some cs → ∀ c ∈ cs, IsName c
  realpath_eq : ∀ p t, fs.realpath p = some t → ∃ cs, canon p = some cs ∧ t = absolute SLASH cs
  openRead_eq : ∀ p f, fs.openRead p = some f → ∃ cs, canon p = some cs ∧ file cs = some f

/-! ## The test -/

theorem atStep_drop_iff (t : Bytes) (n : Nat) :
    AtStep SLASH (t.drop n) ↔ ∀ b ∈ t[n]?, b = SLASH := by
  rw [AtStep, List.head?_drop]

theorem verifyUrl_eq_false_iff (fs : FileSystem) (approot fullPath : Bytes) :
    verifyUrl fs approot fullPath = false ↔
      ∃ rootReal fullReal, fs.realpath approot = some rootReal ∧
        fs.realpath fullPath = some fullReal ∧ Beneath SLASH rootReal fullReal := by
  unfold verifyUrl
  cases hroot : fs.realpath approot with
  | none => simp
  | some rootReal =>
    cases hfull : fs.realpath fullPath with
    | none => simp
    | some fullReal =>
      simp only [Option.some.injEq, exists_and_left, exists_eq_left', Beneath, atStep_drop_iff]
      by_cases hp : rootReal <+: fullReal
      · cases hb : fullReal[rootReal.length]? with
        | none => simp [hp]
        | some b => simp [hp]
      · simp [hp]

/-- The paths of a request the test lets through. -/
theorem canonical_of_verifyUrl {fs : FileSystem} {canon : Bytes → Option (List Bytes)}
    {file : List Bytes → Option OpenFile} (hfs : Canonical fs canon file) {approot fullPath : Bytes}
    (h : verifyUrl fs approot fullPath = false) :
    ∃ root full, canon approot = some root ∧ canon fullPath = some full ∧ root <+: full := by
  obtain ⟨rootReal, fullReal, hroot, hfull, hbeneath⟩ := (verifyUrl_eq_false_iff ..).mp h
  obtain ⟨root, hcroot, rfl⟩ := hfs.realpath_eq _ _ hroot
  obtain ⟨full, hcfull, rfl⟩ := hfs.realpath_eq _ _ hfull
  refine ⟨root, full, hcroot, hcfull, prefix_of_beneath ?_ ?_ hbeneath⟩
  · exact fun c hc => (hfs.isName _ _ hcroot c hc).component
  · exact fun c hc => (hfs.isName _ _ hcfull c hc).component

/-! ## What is served -/

/-- The body of a reply is the content of this file: all of it, or nothing of an empty file. -/
def CarriesFile (resp : Http) (f : OpenFile) : Prop :=
  (f.size = some 0 ∧ resp.body = none ∧ resp.bodyLen = 0) ∨
    ∃ content, f.content = some content ∧ f.size = some content.length ∧
      resp.body = some content ∧ resp.bodyLen = content.length

/-- A reply with code 200 carries a file, opened after the test. -/
theorem getPath_ok {env : Env} {url : Bytes} (h : (getPath env url).code = 200) :
    ∃ approot f, env.approot = some approot ∧ verifyUrl env.fs approot (approot ++ url) = false ∧
      env.fs.openRead (approot ++ url) = some f ∧ CarriesFile (getPath env url) f := by
  revert h
  unfold getPath
  split
  · intro h
    exact absurd h (by decide)
  rename_i approot hroot
  dsimp only
  split_ifs with hverify
  · intro h
    exact absurd h (by decide)
  rw [Bool.not_eq_true] at hverify
  split
  · intro h
    exact absurd h (by decide)
  rename_i f hopen
  split
  · intro h
    exact absurd h (by decide)
  · rename_i hsize
    exact fun _ => ⟨approot, f, hroot, hverify, hopen, .inl ⟨hsize, rfl, rfl⟩⟩
  · intro h
    exact absurd h (by decide)
  · rename_i size content _ hsize hcontent
    have hlen : content.length = size := f.length_eq _ _ hsize hcontent
    refine fun _ => ⟨approot, f, hroot, hverify, hopen, .inr ⟨content, hcontent, ?_, rfl, ?_⟩⟩
    · rw [hlen, hsize]
    · exact hlen.symm

/-- **A file served with code 200 lies at the canonical root or beneath it**, whatever the
    configured root and the path are. -/
theorem getPath_confined {env : Env} {canon : Bytes → Option (List Bytes)}
    {file : List Bytes → Option OpenFile} (hfs : Canonical env.fs canon file) (url : Bytes)
    (h : (getPath env url).code = 200) :
    ∃ approot root full f, env.approot = some approot ∧ canon approot = some root ∧
      canon (approot ++ url) = some full ∧ file full = some f ∧
      CarriesFile (getPath env url) f ∧ root <+: full := by
  obtain ⟨approot, f, hroot, hverify, hopen, hcarries⟩ := getPath_ok h
  obtain ⟨root, full, hcroot, hcfull, hpre⟩ := canonical_of_verifyUrl hfs hverify
  obtain ⟨full', hcfull', hfile⟩ := hfs.openRead_eq _ _ hopen
  obtain rfl : full = full' := Option.some.inj (hcfull.symm.trans hcfull')
  exact ⟨approot, root, full, f, hroot, hcroot, hcfull, hfile, hcarries, hpre⟩

/-- What static serving answers with code 200 comes from a file beneath the root. -/
theorem servePath_confined {env : Env} {canon : Bytes → Option (List Bytes)}
    {file : List Bytes → Option OpenFile} (hfs : Canonical env.fs canon file) {req : Http}
    (h : (servePath env req).code = 200) :
    ∃ approot root full f, env.approot = some approot ∧ canon approot = some root ∧
      canon (approot ++ req.path.getD []) = some full ∧ file full = some f ∧
      (CarriesFile (servePath env req) f ∨ (servePath env req).body = none) ∧ root <+: full := by
  have hpath : (getPath env (req.path.getD [])).code = 200 ∧
      (servePath env req = getPath env (req.path.getD []) ∨ (servePath env req).body = none) := by
    revert h
    unfold servePath
    split
    · exact fun h => ⟨h, .inl rfl⟩
    · exact fun h => ⟨h, .inr rfl⟩
    all_goals exact fun h => absurd h (by decide)
  obtain ⟨approot, root, full, f, hroot, hcroot, hcfull, hfile, hcarries, hpre⟩ :=
    getPath_confined hfs _ hpath.1
  refine ⟨approot, root, full, f, hroot, hcroot, hcfull, hfile, ?_, hpre⟩
  rcases hpath.2 with heq | hnone
  · exact .inl (heq ▸ hcarries)
  · exact .inr hnone

/-- The same for the target of an alias. -/
theorem handleAlias_confined {env : Env} {canon : Bytes → Option (List Bytes)}
    {file : List Bytes → Option OpenFile} (hfs : Canonical env.fs canon file) {req : Http}
    {route : Route} (h : (handleAlias env req route).code = 200) :
    ∃ approot root full f, env.approot = some approot ∧ canon approot = some root ∧
      canon (approot ++ route.dest) = some full ∧ file full = some f ∧
      (CarriesFile (handleAlias env req route) f ∨ (handleAlias env req route).body = none) ∧
      root <+: full :=
  servePath_confined hfs h

/-! ## A disk without links -/

/-- The path, read name by name: `.` stays, `..` goes up. -/
def lexical (p : Bytes) : List Bytes :=
  (split SLASH p).foldl
    (fun cs c =>
      if c = [] ∨ c = ascii "." ∨ NUL ∈ c then cs
      else if c = ascii ".." then cs.dropLast
      else cs ++ [c])
    []

/-- The file at a path of a disk. -/
def diskFile (disk : List (List Bytes × Bytes)) (cs : List Bytes) : Option OpenFile :=
  (disk.lookup cs).map fun content =>
    ⟨some content.length, some content, by rintro n c ⟨⟩ ⟨⟩; rfl⟩

/-- A disk without links: a path exists if a file is there or beneath it. -/
def diskFs (disk : List (List Bytes × Bytes)) : FileSystem where
  realpath p :=
    if disk.any fun x => (lexical p).isPrefixOf x.1 then some (absolute SLASH (lexical p)) else none
  openRead p := diskFile disk (lexical p)

theorem isName_lexical (p : Bytes) : ∀ c ∈ lexical p, IsName c := by
  unfold lexical
  have hsplit : ∀ c ∈ split SLASH p, SLASH ∉ c := fun c hc => not_mem_of_mem_split hc
  suffices ∀ (parts acc : List Bytes), (∀ c ∈ parts, SLASH ∉ c) → (∀ c ∈ acc, IsName c) →
      ∀ c ∈ parts.foldl (fun cs c =>
        if c = [] ∨ c = ascii "." ∨ NUL ∈ c then cs
        else if c = ascii ".." then cs.dropLast
        else cs ++ [c]) acc, IsName c from this _ [] hsplit (by simp)
  intro parts
  induction parts with
  | nil => exact fun acc _ hacc => hacc
  | cons part parts ih =>
    intro acc hparts hacc
    rw [List.foldl_cons]
    apply ih _ fun c hc => hparts c (List.mem_cons_of_mem part hc)
    split_ifs with hskip hup
    · exact hacc
    · exact fun c hc => hacc c (List.dropLast_subset acc hc)
    · intro c hc
      rcases List.mem_append.mp hc with hc | hc
      · exact hacc c hc
      · obtain rfl := List.mem_singleton.mp hc
        push Not at hskip
        exact ⟨⟨hskip.1, hparts c List.mem_cons_self⟩, hskip.2.2, hskip.2.1, hup⟩

theorem diskFs_canonical (disk : List (List Bytes × Bytes)) :
    Canonical (diskFs disk) (fun p => some (lexical p)) (diskFile disk) where
  isName := by
    rintro p cs ⟨⟩
    exact isName_lexical p
  realpath_eq p t h := by
    refine ⟨lexical p, rfl, ?_⟩
    simp only [diskFs] at h
    split_ifs at h
    exact (Option.some.inj h).symm
  openRead_eq p f h := ⟨lexical p, rfl, h⟩

/-- A page beneath the root, and a key in a sibling directory whose name extends the root's. -/
def sampleDisk : List (List Bytes × Bytes) :=
  [([ascii "srv", ascii "www", ascii "a", ascii "index.html"], ascii "hi"),
    ([ascii "srv", ascii "www-old", ascii "key"], ascii "k")]

def sampleEnv : Env where
  approot := some (ascii "/srv/www")
  fs := diskFs sampleDisk
  routes := []
  connect := fun _ => none

theorem getPath_confined_sample :
    (getPath sampleEnv (ascii "/a/../a/./index.html")).code = 200 ∧
      ∃ approot root full f, sampleEnv.approot = some approot ∧ some (lexical approot) = some root ∧
        some (lexical (approot ++ ascii "/a/../a/./index.html")) = some full ∧
        diskFile sampleDisk full = some f ∧
        CarriesFile (getPath sampleEnv (ascii "/a/../a/./index.html")) f ∧ root <+: full :=
  ⟨by rfl, getPath_confined (diskFs_canonical sampleDisk) _ (by rfl)⟩

example : (getPath sampleEnv (ascii "-old/key")).code = 404 := by decide +kernel

/-! ## What is beneath the root -/

/-- **A path at or beneath the root is let through if and only if the root is not `/`**, or the path
    is `/` itself: for every root and every path that exist. -/
theorem nothing_refused_iff {fs : FileSystem} {canon : Bytes → Option (List Bytes)}
    {file : List Bytes → Option OpenFile} (hfs : Canonical fs canon file)
    {approot fullPath : Bytes} {root full : List Bytes} (hroot : (fs.realpath approot).isSome)
    (hfull : (fs.realpath fullPath).isSome) (hcroot : canon approot = some root)
    (hcfull : canon fullPath = some full) (hpre : root <+: full) :
    verifyUrl fs approot fullPath = false ↔ root ≠ [] ∨ full = [] := by
  obtain ⟨rootReal, hrootReal⟩ := Option.isSome_iff_exists.mp hroot
  obtain ⟨fullReal, hfullReal⟩ := Option.isSome_iff_exists.mp hfull
  obtain ⟨root', hcroot', rfl⟩ := hfs.realpath_eq _ _ hrootReal
  obtain ⟨full', hcfull', rfl⟩ := hfs.realpath_eq _ _ hfullReal
  obtain rfl : root' = root := Option.some.inj (hcroot'.symm.trans hcroot)
  obtain rfl : full' = full := Option.some.inj (hcfull'.symm.trans hcfull)
  have hbeneath : Beneath SLASH (absolute SLASH root') (absolute SLASH full') ↔
      root' <+: full' ∧ (root' ≠ [] ∨ full' = []) := by
    apply beneath_absolute_iff
    · exact fun c hc => (hfs.isName _ _ hcroot c hc).component
    · exact fun c hc => (hfs.isName _ _ hcfull c hc).component
  rw [verifyUrl_eq_false_iff]
  constructor
  · rintro ⟨rootReal, fullReal, hr, hf, h⟩
    rw [hrootReal] at hr
    rw [hfullReal] at hf
    obtain rfl := Option.some.inj hr
    obtain rfl := Option.some.inj hf
    exact (hbeneath.mp h).2
  · intro h
    exact ⟨_, _, hrootReal, hfullReal, hbeneath.mpr ⟨hpre, h⟩⟩

theorem nothing_refused_iff_sample :
    verifyUrl (diskFs sampleDisk) (ascii "/srv/www") (ascii "/srv/www/a/index.html") = false ↔
      [ascii "srv", ascii "www"] ≠ [] ∨
        [ascii "srv", ascii "www", ascii "a", ascii "index.html"] = [] :=
  nothing_refused_iff (diskFs_canonical sampleDisk) (by decide +kernel) (by decide +kernel)
    (by decide +kernel) (by decide +kernel) (by decide)

/-- With the root `/` a file beneath it is refused: its text has no slash behind the first. -/
theorem root_directory_refuses :
    (diskFs sampleDisk).realpath (ascii "/") = some (ascii "/") ∧
    (diskFs sampleDisk).realpath (ascii "/srv/www/a/index.html") =
      some (ascii "/srv/www/a/index.html") ∧
    lexical (ascii "/") = [] ∧
    lexical (ascii "/") <+: lexical (ascii "/srv/www/a/index.html") ∧
    verifyUrl (diskFs sampleDisk) (ascii "/") (ascii "/srv/www/a/index.html") = true := by
  decide +kernel

end Foxtails.Serve
