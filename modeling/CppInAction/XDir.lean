import CppInAction.VideoInput
import Mathlib.Data.List.Nodup

namespace CppInAction

/-- The entries of a directory in the order in which they are listed. A link to a regular
file counts as one; a link to a directory is not followed and is one of the others. -/
inductive Directory
  | done
  | file (name : List UInt8) (rest : Directory)
  | other (name : List UInt8) (rest : Directory)
  | directory (name : List UInt8) (inside rest : Directory)
deriving DecidableEq, Repr

structure XFile where
  name : List UInt8
  path : List UInt8
  ext : List UInt8
deriving DecidableEq, Repr

namespace XDir

/-- The operator / of paths, for a name without a slash. -/
def joinPath (path name : List UInt8) : List UInt8 :=
  if path = [] ∨ path.getLast? = some 47 then path ++ name else path ++ 47 :: name

/-- From the last dot on, unless there is none or the name begins with it. -/
def extension (name : List UInt8) : List UInt8 :=
  let behind := (name.reverse.takeWhile (· ≠ 46)).length
  if name.length ≤ behind + 1 then [] else name.drop (name.length - (behind + 1))

/-- The loop of GetFiles; the iterator enters a directory behind its entry. -/
def getFiles (path : List UInt8) : Directory → List XFile
  | .done => []
  | .file name rest => ⟨name, joinPath path name, extension name⟩ :: getFiles path rest
  | .other _ rest => getFiles path rest
  | .directory name inside rest => getFiles (joinPath path name) inside ++ getFiles path rest

end XDir

namespace Directory

/-- The names of the entries. -/
def names : Directory → List (List UInt8)
  | .done => []
  | .file name rest => name :: rest.names
  | .other name rest => name :: rest.names
  | .directory name _ rest => name :: rest.names

/-- No directory has two entries with one name. -/
def Proper : Directory → Prop
  | .done => True
  | .file name rest => name ∉ rest.names ∧ rest.Proper
  | .other name rest => name ∉ rest.names ∧ rest.Proper
  | .directory name inside rest => name ∉ rest.names ∧ inside.Proper ∧ rest.Proper

/-- The regular files: the directories that lead to each of them, and its name. -/
def files : Directory → List (List (List UInt8) × List UInt8)
  | .done => []
  | .file name rest => ([], name) :: rest.files
  | .other _ rest => rest.files
  | .directory name inside rest => inside.files.map (fun x => (name :: x.1, x.2)) ++ rest.files

end Directory

namespace XVideoInput

/-- The data that the task cv gives to RunTask for a file of a directory. -/
def fileData (data : TaskData) (file : XFile) : TaskData :=
  { data with src := file.path, des := data.des ++ 47 :: file.name }

end XVideoInput

namespace Directory

variable {t : Directory}

/-- The first part of a place in a directory is the name of an entry. -/
theorem head_mem_names {x : List (List UInt8) × List UInt8} (h : x ∈ t.files) :
    (x.1.head?.getD x.2) ∈ t.names := by
  induction t generalizing x with
  | done => cases h
  | file name rest ih =>
    rcases List.mem_cons.mp h with rfl | h
    · exact List.mem_cons_self
    · exact List.mem_cons_of_mem _ (ih h)
  | other name rest ih => exact List.mem_cons_of_mem _ (ih h)
  | directory name inside rest _ ih =>
    rcases List.mem_append.mp h with h | h
    · obtain ⟨y, _, rfl⟩ := List.mem_map.mp h
      exact List.mem_cons_self
    · exact List.mem_cons_of_mem _ (ih h)

/-- No regular file is listed twice. -/
theorem Proper.files_nodup (h : t.Proper) : t.files.Nodup := by
  induction t with
  | done => exact List.nodup_nil
  | file name rest ih =>
    exact List.nodup_cons.mpr ⟨fun hm => h.1 (head_mem_names hm), ih h.2⟩
  | other name rest ih => exact ih h.2
  | directory name inside rest ihInside ih =>
    apply List.nodup_append.mpr
    refine ⟨(ihInside h.2.1).map ?_, ih h.2.2, fun x hx y hy heq => ?_⟩
    · intro x y hxy
      rw [Prod.mk.injEq, List.cons.injEq] at hxy
      exact Prod.ext hxy.1.2 hxy.2
    · obtain ⟨z, _, rfl⟩ := List.mem_map.mp hx
      subst heq
      exact h.1 (head_mem_names hy)

theorem getFiles_names (t : Directory) (path : List UInt8) :
    (XDir.getFiles path t).map XFile.name = t.files.map Prod.snd := by
  induction t generalizing path with
  | done => rfl
  | file name rest ih => exact congrArg (name :: ·) (ih path)
  | other name rest ih => exact ih path
  | directory name inside rest ihInside ih =>
    rw [XDir.getFiles, files, List.map_append, List.map_append, ihInside, ih, List.map_map]
    rfl

end Directory

namespace XDir

/-- The destinations of a whole directory are pairwise distinct exactly if no two of its
regular files in different directories have the same name. -/
theorem destinations_distinct_iff (t : Directory) (h : t.Proper) (data : TaskData) (path : List UInt8) :
    ((getFiles path t).map fun file => (XVideoInput.fileData data file).des).Nodup ↔
      ∀ x ∈ t.files, ∀ y ∈ t.files, x.2 = y.2 → x.1 = y.1 := by
  have hdes : ((getFiles path t).map fun file => (XVideoInput.fileData data file).des) =
      (t.files.map Prod.snd).map fun name => data.des ++ 47 :: name := by
    rw [← Directory.getFiles_names t path, List.map_map]
    rfl
  have hinj : Function.Injective fun name : List UInt8 => data.des ++ 47 :: name := by
    intro a b hab
    exact (List.cons.inj (List.append_cancel_left hab)).2
  rw [hdes, List.nodup_map_iff hinj, List.nodup_map_iff_inj_on h.files_nodup]
  constructor
  · intro hfiles x hx y hy hname
    rw [hfiles x hx y hy hname]
  · intro hfiles x hx y hy hname
    exact Prod.ext (hfiles x hx y hy hname) hname

/-- A file in a directory of a directory, and one in another directory. -/
def nested (x y : List UInt8) : Directory :=
  .directory (bytes "a") (.directory (bytes "c") (.file x .done) .done) (.directory (bytes "b") (.file y .done) .done)

/-- With two names the files of this tree go to two destinations, with one name to the same. -/
theorem destinations_distinct_iff_nested :
    ((getFiles (bytes "v") (nested (bytes "x") (bytes "y"))).map
        fun file => (XVideoInput.fileData { des := bytes "out" } file).des).Nodup ∧
      ¬ ((getFiles (bytes "v") (nested (bytes "x") (bytes "x"))).map
        fun file => (XVideoInput.fileData { des := bytes "out" } file).des).Nodup := by
  have hproper : ∀ x y, (nested x y).Proper := fun x y =>
    ⟨show bytes "a" ∉ [bytes "b"] by decide, ⟨List.not_mem_nil, ⟨List.not_mem_nil, trivial⟩, trivial⟩,
      List.not_mem_nil, ⟨List.not_mem_nil, trivial⟩, trivial⟩
  refine ⟨(destinations_distinct_iff _ (hproper _ _) _ _).mpr (by decide), fun hnodup => ?_⟩
  have hnames := (destinations_distinct_iff _ (hproper _ _) _ _).mp hnodup
  exact absurd hnames (by decide)

/-- The files a/x and b/x have one destination. -/
theorem destinations_not_always_distinct :
    ¬ ∀ (t : Directory) (data : TaskData) (path : List UInt8), t.Proper →
      ((getFiles path t).map fun file => (XVideoInput.fileData data file).des).Nodup := by
  intro h
  have hnodup := h (.directory (bytes "a") (.file (bytes "x") .done) (.directory (bytes "b") (.file (bytes "x") .done) .done))
    { des := bytes "out" } (bytes "v") ⟨by decide, ⟨by decide, trivial⟩, by decide, ⟨by decide, trivial⟩, trivial⟩
  exact absurd hnodup (by decide)

end XDir

end CppInAction
