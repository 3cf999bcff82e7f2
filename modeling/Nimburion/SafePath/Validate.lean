import Nimburion.Errors
import Nimburion.Lib.FilePath

namespace Nimburion.SafePath
open ByteText FilePath

def errPathTraversal : GoError := .text "path traversal detected"

def errInvalidPath : GoError := .text "invalid file path"

def validateFilePath (getwd : Except GoError Bytes) (path baseDir : Bytes) : Option GoError :=
  if path = [] then some errInvalidPath
  else
    let cleanPath := clean path
    if dotdot <:+: cleanPath then some errPathTraversal
    else if baseDir ≠ [] then
      match abs getwd baseDir with
      | .error err => some err
      | .ok absBase => match abs getwd cleanPath with
          | .error err => some err
          | .ok absPath => if ¬absBase <+: absPath then some errPathTraversal else none
    else none

-- os.Getwd answers with an absolute path
structure WorkingDirectory where
  path : Bytes
  rooted : isAbs path = true

def Below (base path : List Bytes) : Prop := base <+: path ∧ base ≠ path

namespace WorkingDirectory

variable (wd : WorkingDirectory)

def validate (path baseDir : Bytes) : Option GoError := validateFilePath (.ok wd.path) path baseDir

-- the components of the absolute cleaned path
def place (p : Bytes) : List Bytes := names (absolute wd.path p)

structure Confines (path baseDir : Bytes) : Prop where
  inside : wd.validate path baseDir = none → wd.place baseDir <+: wd.place path
  accepts : Below (wd.place baseDir) (wd.place path) → dotdot ∉ components path →
    wd.validate path baseDir = none

-- no way through a directory whose name begins with the base's, no name with two dots in a row
structure Distinct (path baseDir : Bytes) : Prop where
  beside : path ≠ [] → (∀ name ∈ elements path,¬dotdot <:+: name) →
    ¬Sibling (wd.place baseDir) (wd.place path)
  dots : Below (wd.place baseDir) (wd.place path) → dotdot ∉ components path →
    path ≠ [] ∧ ∀ name ∈ components path,¬dotdot <:+: name

variable {wd} {path baseDir : Bytes}

theorem quiet_iff (h : dotdot ∉ components path) :
    (∀ name ∈ elements path,¬dotdot <:+: name) ↔ ∀ name ∈ components path,¬dotdot <:+: name := by
  have hnames := not_congr (dotdot_infix_elements h)
  push Not at hnames
  exact hnames

theorem validate_eq_none_iff (hbase : baseDir ≠ []) :
    wd.validate path baseDir = none ↔
      path ≠ [] ∧ (∀ name ∈ elements path,¬dotdot <:+: name) ∧
        (wd.place baseDir <+: wd.place path ∨ Sibling (wd.place baseDir) (wd.place path)) := by
  have hdots : ¬dotdot <:+: clean path ↔ ∀ name ∈ elements path,¬dotdot <:+: name := by
    rw [dotdot_infix_clean]
    simp
  rw [validate,validateFilePath,← hdots,place,place,← absolute_prefix_iff wd.rooted]
  simp only [abs_ok,hbase,ne_eq,not_false_eq_true,if_true]
  by_cases hpath : path = []
  · simp [hpath]
  by_cases hclean : dotdot <:+: clean path
  · simp [hpath,hclean]
  by_cases hwithin : absolute wd.path baseDir <+: absolute wd.path (clean path)
  · simp [hpath,hclean,hwithin]
  · simp [hpath,hclean,hwithin]

theorem confines_iff (wd : WorkingDirectory) (path : Bytes) {baseDir : Bytes}
    (hbase : baseDir ≠ []) : wd.Confines path baseDir ↔ wd.Distinct path baseDir := by
  constructor
  · rintro ⟨hinside,haccepts⟩
    refine ⟨fun hpath hdots hsibling => ?_,fun hbelow hcomponents => ?_⟩
    · have haccepted := (validate_eq_none_iff hbase).mpr ⟨hpath,hdots,.inr hsibling⟩
      exact not_prefix_of_sibling hsibling (hinside haccepted)
    · obtain ⟨hpath,hdots,-⟩ := (validate_eq_none_iff hbase).mp (haccepts hbelow hcomponents)
      exact ⟨hpath,(quiet_iff hcomponents).mp hdots⟩
  · rintro ⟨hbeside,hnames⟩
    refine ⟨fun haccepted => ?_,fun hbelow hcomponents => ?_⟩
    · obtain ⟨hpath,hdots,hwithin | hsibling⟩ := (validate_eq_none_iff hbase).mp haccepted
      · exact hwithin
      · exact absurd hsibling (hbeside hpath hdots)
    · obtain ⟨hpath,hdots⟩ := hnames hbelow hcomponents
      exact (validate_eq_none_iff hbase).mpr ⟨hpath,(quiet_iff hcomponents).mpr hdots,.inl hbelow.1⟩

def srv : WorkingDirectory := ⟨ascii "/srv",by decide⟩

theorem certificate_confined : ascii "app" ≠ [] ∧
    srv.Confines (ascii "./app/tls//key.pem") (ascii "app") := by
  have hplace : srv.place (ascii "app") <+: srv.place (ascii "./app/tls//key.pem") := by decide
  refine ⟨by decide,(confines_iff srv (ascii "./app/tls//key.pem") (by decide)).mpr ⟨?_,?_⟩⟩
  · exact fun _ _ hsibling => not_prefix_of_sibling hsibling hplace
  · exact fun _ _ => ⟨by decide,by decide⟩

-- the first lies outside and is accepted, the second lies below and is refused
theorem sibling_accepted_and_two_dots_refused :
    ¬srv.Confines (ascii "/srv/app-old/key.pem") (ascii "/srv/app") ∧
      ¬srv.Confines (ascii "/srv/app/v1..v2.pem") (ascii "/srv/app") := by
  constructor
  · intro h
    exact absurd (h.inside (by decide)) (by decide)
  · intro h
    exact absurd (h.accepts ⟨by decide,by decide⟩ (by decide)) (by decide)

end WorkingDirectory

end Nimburion.SafePath
