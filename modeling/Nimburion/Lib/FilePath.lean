import Nimburion.Lib.ByteText
import Mathlib.Data.List.Infix

namespace Nimburion.FilePath
open ByteText

section Joined

variable {α : Type} {sep : α}

theorem append_sep_isPrefix_iff {x y a b : List α} (hx : sep ∉ x) (hy : sep ∉ y) :
    x ++ sep :: a <+: y ++ sep :: b ↔ x = y ∧ a <+: b := by
  constructor
  · rintro ⟨t,ht⟩
    rw [List.append_assoc] at ht
    rcases List.append_eq_append_iff.mp ht with ⟨u,rfl,hu⟩ | ⟨u,rfl,hu⟩
    · cases u with
      | nil =>
        obtain ⟨-,rfl⟩ := List.cons.inj hu
        exact ⟨by simp,t,rfl⟩
      | cons c u =>
        obtain ⟨rfl,-⟩ := List.cons.inj hu
        simp at hy
    · cases u with
      | nil =>
        obtain ⟨-,rfl⟩ := List.cons.inj hu
        exact ⟨by simp,t,rfl⟩
      | cons c u =>
        obtain ⟨rfl,-⟩ := List.cons.inj hu
        simp at hx
  · rintro ⟨rfl,t,rfl⟩
    exact ⟨t,by simp⟩

theorem infix_append_sep {w a b : List α} (hw : sep ∉ w) :
    w <:+: a ++ sep :: b ↔ w <:+: a ∨ w <:+: b := by
  constructor
  · rintro ⟨l,r,hlr⟩
    rcases List.append_eq_append_iff.mp hlr with ⟨t,rfl,-⟩ | ⟨t,ht,hb⟩
    · exact .inl ⟨l,t,rfl⟩
    cases t with
    | nil =>
      rw [List.append_nil] at ht
      exact .inl ⟨l,[],by rw [List.append_nil,ht]⟩
    | cons c t =>
      obtain ⟨rfl,rfl⟩ := List.cons.inj hb
      rcases List.append_eq_append_iff.mp ht with ⟨u,-,rfl⟩ | ⟨u,-,hu⟩
      · simp at hw
      · cases u with
        | nil =>
          rw [List.nil_append] at hu
          simp [← hu] at hw
        | cons d u =>
          obtain ⟨-,rfl⟩ := List.cons.inj hu
          exact .inr ⟨u,r,rfl⟩
  · rintro (h | h)
    · exact h.trans (List.prefix_append a _).isInfix
    · exact h.trans (List.IsSuffix.trans (List.suffix_cons sep b) (List.suffix_append a _)).isInfix

-- a part that holds no separator is found in one of the texts joined
theorem infix_intercalate {w : List α} (hne : w ≠ []) (hw : sep ∉ w) (xs : List (List α)) :
    w <:+: [sep].intercalate xs ↔ ∃ x ∈ xs,w <:+: x := by
  induction xs with
  | nil => simp [hne]
  | cons x xs ih =>
    cases xs with
    | nil => simp
    | cons y xs =>
      rw [List.intercalate_cons_cons,List.append_assoc,List.singleton_append,infix_append_sep hw,ih]
      exact (List.exists_mem_cons_iff ..).symm

-- a path through a directory beside the base whose name begins with the base's own
def Sibling (base path : List (List α)) : Prop :=
  ∃ parent name more rest,base = parent ++ [name] ∧ path = parent ++ (name ++ more) :: rest ∧
    more ≠ []

theorem not_prefix_of_sibling {base path : List (List α)} (h : Sibling base path) :
    ¬base <+: path := by
  obtain ⟨parent,name,more,rest,rfl,rfl,hmore⟩ := h
  rw [List.prefix_append_right_inj,List.cons_prefix_cons]
  rintro ⟨heq,-⟩
  exact hmore (by simpa using heq)

theorem sibling_singleton {x y : List α} {ys : List (List α)} :
    Sibling [x] (y :: ys) ↔ ∃ more,y = x ++ more ∧ more ≠ [] := by
  constructor
  · rintro ⟨parent,name,more,rest,hbase,hpath,hmore⟩
    cases parent with
    | nil =>
      obtain rfl : x = name := by simpa using hbase
      exact ⟨more,(List.cons.inj hpath).1,hmore⟩
    | cons p parent => simp at hbase
  · rintro ⟨more,rfl,hmore⟩
    exact ⟨[],x,more,ys,rfl,rfl,hmore⟩

theorem sibling_cons {x y : List α} {xs ys : List (List α)} (hne : xs ≠ []) :
    Sibling (x :: xs) (y :: ys) ↔ x = y ∧ Sibling xs ys := by
  constructor
  · rintro ⟨parent,name,more,rest,hbase,hpath,hmore⟩
    cases parent with
    | nil => exact absurd (List.cons.inj hbase).2 hne
    | cons p parent =>
      obtain ⟨rfl,rfl⟩ := List.cons.inj hbase
      obtain ⟨rfl,rfl⟩ := List.cons.inj hpath
      exact ⟨rfl,parent,name,more,rest,rfl,rfl,hmore⟩
  · rintro ⟨rfl,parent,name,more,rest,rfl,rfl,hmore⟩
    exact ⟨x :: parent,name,more,rest,rfl,rfl,hmore⟩

theorem not_sibling_nil {xs : List (List α)} : ¬Sibling xs [] := by
  rintro ⟨parent,name,more,rest,-,hpath,-⟩
  simp at hpath

theorem intercalate_ne_nil {x : List α} {xs : List (List α)} (hx : x ≠ []) :
    [sep].intercalate (x :: xs) ≠ [] := by
  cases xs with
  | nil => simpa using hx
  | cons y xs => simp [List.intercalate_cons_cons]

theorem prefix_intercalate_cons {x y : List α} {ys : List (List α)} (hx : sep ∉ x) :
    x <+: [sep].intercalate (y :: ys) ↔ x <+: y := by
  cases ys with
  | nil => rw [List.intercalate_singleton]
  | cons z ys =>
    rw [List.intercalate_cons_cons,List.append_assoc,List.singleton_append]
    refine ⟨fun h => ?_,fun h => h.trans (List.prefix_append y _)⟩
    have hy : y ++ [sep] <+: y ++ sep :: [sep].intercalate (z :: ys) :=
      ⟨[sep].intercalate (z :: ys),by simp⟩
    rcases List.prefix_or_prefix_of_prefix h hy with hxy | hyx
    · rcases List.prefix_concat_iff.mp hxy with rfl | hxy
      · simp at hx
      · exact hxy
    · exact absurd (hyx.subset (by simp)) hx

-- the texts compared byte by byte: what the prefix test sees of the components
theorem intercalate_isPrefix_iff {xs ys : List (List α)} (hne : ∀ x ∈ xs,x ≠ [])
    (hx : ∀ x ∈ xs,sep ∉ x) (hy : ∀ y ∈ ys,sep ∉ y) :
    [sep].intercalate xs <+: [sep].intercalate ys ↔ xs <+: ys ∨ Sibling xs ys := by
  induction xs generalizing ys with
  | nil => simp
  | cons x xs ih =>
    have hxne := hne x (by simp)
    have hxsep := hx x (by simp)
    cases ys with
    | nil =>
      refine iff_of_false (fun h => ?_) ?_
      · exact intercalate_ne_nil hxne (List.prefix_nil.mp h)
      · rintro (h | h)
        · simp at h
        · exact not_sibling_nil h
    | cons y ys =>
      have hysep := hy y (by simp)
      cases xs with
      | nil =>
        rw [List.intercalate_singleton,prefix_intercalate_cons hxsep,List.cons_prefix_cons,
          sibling_singleton]
        constructor
        · rintro ⟨more,rfl⟩
          by_cases hmore : more = []
          · exact .inl ⟨by simp [hmore],List.nil_prefix⟩
          · exact .inr ⟨more,rfl,hmore⟩
        · rintro (⟨rfl,-⟩ | ⟨more,rfl,-⟩)
          · exact List.prefix_rfl
          · exact List.prefix_append x more
      | cons x' xs =>
        rw [sibling_cons (by simp),List.cons_prefix_cons,List.intercalate_cons_cons,
          List.append_assoc,List.singleton_append]
        cases ys with
        | nil =>
          refine iff_of_false (fun h => ?_) ?_
          · have hsep : sep ∈ x ++ sep :: [sep].intercalate (x' :: xs) := by simp
            rw [List.intercalate_singleton] at h
            exact hysep (h.subset hsep)
          · rintro (⟨-,h⟩ | ⟨-,h⟩)
            · simp at h
            · exact not_sibling_nil h
        | cons y' ys =>
          rw [List.intercalate_cons_cons,List.append_assoc,List.singleton_append,
            append_sep_isPrefix_iff hxsep hysep,ih (fun z hz => hne z (by simp [hz]))
              (fun z hz => hx z (by simp [hz])) (fun z hz => hy z (by simp [hz])),and_or_left]

end Joined

abbrev slash : UInt8 := 47

def dot : Bytes := [46]

def dotdot : Bytes := [46,46]

def isAbs (p : Bytes) : Bool := p.head? == some slash

def components (p : Bytes) : List Bytes := p.splitOn slash

-- one more element of filepath.Clean, on top of those kept
def push (rooted : Bool) (kept : List Bytes) (element : Bytes) : List Bytes :=
  if element = [] ∨ element = dot then kept
  else if element = dotdot then
    if rooted = false ∧ (kept = [] ∨ kept.getLast? = some dotdot) then kept ++ [dotdot]
    else kept.dropLast
  else kept ++ [element]

def elements (p : Bytes) : List Bytes := (components p).foldl (push (isAbs p)) []

-- filepath.Clean, Join and Abs on Unix
def clean (p : Bytes) : Bytes :=
  if isAbs p then slash :: [slash].intercalate (elements p)
  else if elements p = [] then dot
  else [slash].intercalate (elements p)

def join (parts : List Bytes) : Bytes :=
  match parts.dropWhile (· == []) with
  | [] => []
  | part :: parts => clean ([slash].intercalate (part :: parts))

def abs {ε : Type} (getwd : Except ε Bytes) (p : Bytes) : Except ε Bytes :=
  if isAbs p then .ok (clean p) else getwd.map fun wd => join [wd,p]

-- what Abs answers when the working directory is known
def absolute (wd p : Bytes) : Bytes := if isAbs p then clean p else join [wd,p]

theorem abs_ok {ε : Type} (wd p : Bytes) :
    abs (.ok wd : Except ε Bytes) p = .ok (absolute wd p) := by
  rw [abs,absolute]
  split_ifs <;> rfl

section Places

-- a directory without links is the list of the names that lead to it from the root
def enter (place : List Bytes) (element : Bytes) : List Bytes :=
  if element = [] ∨ element = dot then place
  else if element = dotdot then place.dropLast
  else place ++ [element]

def locate (wd p : Bytes) : List Bytes :=
  (components p).foldl enter (if isAbs p then [] else (components wd).foldl enter [])

structure Kept (element : Bytes) : Prop where
  ne : element ≠ []
  ne_dot : element ≠ dot
  slash : slash ∉ element

structure Name (element : Bytes) : Prop extends Kept element where
  ne_dotdot : element ≠ dotdot

theorem slash_notMem {p c : Bytes} (h : c ∈ components p) : slash ∉ c := by
  intro hc
  have hnot := (mem_splitOnP h slash hc).2
  simp at hnot

theorem forall_mem_foldl {β γ : Type} {P : γ → Prop} {Q : β → Prop} {f : List γ → β → List γ}
    (hf : ∀ kept b,(∀ x ∈ kept,P x) → Q b → ∀ x ∈ f kept b,P x) {kept : List γ} {bs : List β}
    (h : ∀ x ∈ kept,P x) (hbs : ∀ b ∈ bs,Q b) : ∀ x ∈ bs.foldl f kept,P x := by
  induction bs generalizing kept with
  | nil => exact h
  | cons b bs ih => exact ih (hf kept b h (hbs b (by simp))) fun c hc => hbs c (by simp [hc])

theorem push_rooted (kept : List Bytes) (element : Bytes) :
    push true kept element = enter kept element := by
  simp [push,enter]

theorem kept_push {rooted : Bool} {kept : List Bytes} {element : Bytes}
    (h : ∀ x ∈ kept,Kept x) (hslash : slash ∉ element) : ∀ x ∈ push rooted kept element,Kept x := by
  intro x hx
  simp only [push] at hx
  split_ifs at hx with hskip hup hkeep
  · exact h x hx
  · rcases List.mem_append.mp hx with hx | hx
    · exact h x hx
    · rw [List.mem_singleton.mp hx]
      exact ⟨by decide,by decide,by decide⟩
  · exact h x (List.dropLast_subset _ hx)
  · rcases List.mem_append.mp hx with hx | hx
    · exact h x hx
    · rw [List.mem_singleton.mp hx]
      rw [not_or] at hskip
      exact ⟨hskip.1,hskip.2,hslash⟩

theorem kept_elements {p e : Bytes} (h : e ∈ elements p) : Kept e :=
  forall_mem_foldl (fun _ _ => kept_push) (by simp) (fun _ hc => slash_notMem hc) e h

theorem name_enter {place : List Bytes} {element : Bytes} (h : ∀ x ∈ place,Name x)
    (hslash : slash ∉ element) : ∀ x ∈ enter place element,Name x := by
  intro x hx
  simp only [enter] at hx
  split_ifs at hx with hskip hup
  · exact h x hx
  · exact h x (List.dropLast_subset _ hx)
  · rcases List.mem_append.mp hx with hx | hx
    · exact h x hx
    · rw [List.mem_singleton.mp hx]
      rw [not_or] at hskip
      exact ⟨⟨hskip.1,hskip.2,hslash⟩,hup⟩

theorem name_locate {wd p e : Bytes} (h : e ∈ locate wd p) : Name e := by
  refine forall_mem_foldl (fun _ _ => name_enter) ?_ (fun c hc => slash_notMem hc) e h
  split_ifs
  · simp
  · exact forall_mem_foldl (fun _ _ => name_enter) (by simp) fun c hc => slash_notMem hc

theorem enter_name {element : Bytes} (h : Name element) (place : List Bytes) :
    enter place element = place ++ [element] := by
  simp [enter,h.ne,h.ne_dot,h.ne_dotdot]

theorem foldl_enter_names {es : List Bytes} (h : ∀ e ∈ es,Name e) (place : List Bytes) :
    es.foldl enter place = place ++ es := by
  induction es generalizing place with
  | nil => simp
  | cons e es ih =>
    rw [List.foldl_cons,enter_name (h e (by simp)),ih fun d hd => h d (by simp [hd])]
    simp

-- a relative path leads where what Clean keeps of it leads, from any place
theorem enter_push {kept : List Bytes} (h : ∀ x ∈ kept,Kept x) (place : List Bytes)
    (element : Bytes) :
    (push false kept element).foldl enter place = enter (kept.foldl enter place) element := by
  by_cases hskip : element = [] ∨ element = dot
  · simp [push,enter,hskip]
  by_cases hup : element = dotdot
  · subst hup
    simp only [push,if_neg hskip,if_true,true_and]
    split_ifs with hkeep
    · rw [List.foldl_append,List.foldl_cons,List.foldl_nil]
    · rw [not_or] at hkeep
      obtain ⟨hne,hlast⟩ := hkeep
      -- a name that was kept is what the parent takes back
      rw [← List.dropLast_append_getLast hne] at h hlast ⊢
      have hname : Name (kept.getLast hne) :=
        { h _ (by simp) with ne_dotdot := fun heq => hlast (by simp [heq]) }
      rw [List.dropLast_concat,List.foldl_append,List.foldl_cons,List.foldl_nil,enter_name hname]
      simp [enter,hskip]
  · simp only [push,if_neg hskip,if_neg hup]
    rw [List.foldl_append,List.foldl_cons,List.foldl_nil]

theorem foldl_enter_push {cs kept : List Bytes} (h : ∀ x ∈ kept,Kept x) (hcs : ∀ c ∈ cs,slash ∉ c)
    (place : List Bytes) :
    (cs.foldl (push false) kept).foldl enter place = cs.foldl enter (kept.foldl enter place) := by
  induction cs generalizing kept with
  | nil => rfl
  | cons c cs ih =>
    rw [List.foldl_cons,ih (kept_push h (hcs c (by simp))) fun d hd => hcs d (by simp [hd]),
      enter_push h,List.foldl_cons]

theorem elements_rooted {p : Bytes} (h : isAbs p = true) (wd : Bytes) : elements p = locate wd p := by
  rw [elements,locate,h,if_pos rfl]
  exact congrArg (fun f => (components p).foldl f []) (funext₂ push_rooted)

theorem foldl_enter_elements (p : Bytes) (wd : Bytes) :
    (elements p).foldl enter (if isAbs p then [] else (components wd).foldl enter []) =
      locate wd p := by
  cases h : isAbs p with
  | true =>
    rw [elements_rooted h wd,if_pos rfl,foldl_enter_names fun e he => name_locate he,List.nil_append]
  | false =>
    rw [elements,h,foldl_enter_push (by simp) fun c hc => slash_notMem hc,locate,h]
    rfl

theorem foldl_enter_intercalate {es : List Bytes} (h : ∀ e ∈ es,slash ∉ e) (place : List Bytes) :
    (components ([slash].intercalate es)).foldl enter place = es.foldl enter place := by
  by_cases hes : es = []
  · subst hes
    simp [components,enter]
  · rw [components,List.splitOn_intercalate slash h hes]

theorem isAbs_clean (p : Bytes) : isAbs (clean p) = isAbs p := by
  rw [clean]
  split_ifs with h hes
  · exact h.symm
  · rw [Bool.eq_false_iff.mpr h]
    decide
  · rw [Bool.eq_false_iff.mpr h]
    obtain ⟨e,es,hcons⟩ := List.exists_cons_of_ne_nil hes
    have hkept : Kept e := kept_elements (p := p) (by rw [hcons]; simp)
    rw [isAbs,hcons,head_intercalate hkept.ne,beq_eq_false_iff_ne]
    exact fun hhead => hkept.slash (List.mem_of_head? hhead)

theorem locate_clean (wd p : Bytes) : locate wd (clean p) = locate wd p := by
  have helements : ∀ e ∈ elements p,slash ∉ e := fun e he => (kept_elements he).slash
  rw [← foldl_enter_elements p wd,locate,isAbs_clean,clean]
  split_ifs with h hes
  · rw [components,← List.nil_append (slash :: _),List.splitOn_append_cons_self,List.foldl_append]
    exact foldl_enter_intercalate helements _
  · rw [hes]
    rfl
  · exact foldl_enter_intercalate helements _

theorem absolute_eq {wd : Bytes} (hwd : isAbs wd = true) (p : Bytes) :
    absolute wd p = slash :: [slash].intercalate (locate wd p) := by
  rw [absolute]
  split_ifs with h
  · rw [clean,if_pos h,elements_rooted h wd]
  · have hne : wd ≠ [] := by
      rintro rfl
      cases hwd
    have hrooted : isAbs (wd ++ slash :: p) = true := by
      rw [isAbs,List.head?_append_of_ne_nil _ hne]
      exact hwd
    have hjoin : join [wd,p] = clean (wd ++ slash :: p) := by
      simp [join,hne,List.intercalate_cons_cons]
    have hlocate : locate wd (wd ++ slash :: p) = locate wd p := by
      rw [locate,locate,hrooted,if_pos rfl,if_neg h,components,List.splitOn_append_cons_self,
        List.foldl_append]
      rfl
    rw [hjoin,clean,if_pos hrooted,elements_rooted hrooted wd,hlocate]

-- the names of an absolute path that was cleaned
def names (p : Bytes) : List Bytes := (components p).filter (· ≠ [])

theorem names_rooted {es : List Bytes} (h : ∀ e ∈ es,Name e) :
    names (slash :: [slash].intercalate es) = es := by
  rw [names,components,← List.nil_append (slash :: _),List.splitOn_append_cons_self]
  by_cases hes : es = []
  · subst hes
    rfl
  · rw [List.splitOn_intercalate slash (fun e he => (h e he).slash) hes,List.filter_append]
    have hall : es.filter (· ≠ []) = es := List.filter_eq_self.mpr fun e he => by simpa using (h e he).ne
    rw [hall]
    rfl

theorem names_absolute {wd : Bytes} (hwd : isAbs wd = true) (p : Bytes) :
    names (absolute wd p) = locate wd p := by
  rw [absolute_eq hwd,names_rooted fun e he => name_locate he]

theorem absolute_prefix_iff {wd : Bytes} (hwd : isAbs wd = true) (base p : Bytes) :
    absolute wd base <+: absolute wd (clean p) ↔
      names (absolute wd base) <+: names (absolute wd p) ∨
        Sibling (names (absolute wd base)) (names (absolute wd p)) := by
  rw [names_absolute hwd,names_absolute hwd,absolute_eq hwd,absolute_eq hwd,locate_clean,
    List.cons_prefix_cons,intercalate_isPrefix_iff (fun e he => (name_locate he).ne)
      (fun e he => (name_locate he).slash) (fun e he => (name_locate he).slash)]
  simp

end Places

section Dots

theorem dotdot_infix_clean (p : Bytes) : dotdot <:+: clean p ↔ ∃ e ∈ elements p,dotdot <:+: e := by
  have hjoined : dotdot <:+: [slash].intercalate (elements p) ↔ ∃ e ∈ elements p,dotdot <:+: e :=
    infix_intercalate (by decide) (by decide) (elements p)
  rw [clean]
  split_ifs with h hes
  · rw [← List.nil_append (slash :: _),infix_append_sep (by decide),hjoined]
    simp [dotdot]
  · rw [hes]
    decide
  · exact hjoined

theorem foldl_push_no_dotdot {rooted : Bool} {cs kept : List Bytes} (h : dotdot ∉ cs) :
    cs.foldl (push rooted) kept = kept ++ cs.filter fun c => c ≠ [] ∧ c ≠ dot := by
  induction cs generalizing kept with
  | nil => simp
  | cons c cs ih =>
    rw [List.mem_cons,not_or] at h
    rw [List.foldl_cons,ih h.2,push,if_neg (Ne.symm h.1)]
    split_ifs with hskip
    · rw [List.filter_cons_of_neg (by simpa [or_iff_not_imp_left] using hskip)]
    · rw [List.filter_cons_of_pos (by simpa [not_or] using hskip),List.append_assoc,
        List.singleton_append]

-- a path without a '..' component keeps its names
theorem dotdot_infix_elements {p : Bytes} (h : dotdot ∉ components p) :
    (∃ e ∈ elements p,dotdot <:+: e) ↔ ∃ c ∈ components p,dotdot <:+: c := by
  rw [elements,foldl_push_no_dotdot h,List.nil_append]
  constructor
  · rintro ⟨e,he,hdots⟩
    exact ⟨e,(List.mem_filter.mp he).1,hdots⟩
  · rintro ⟨c,hc,hdots⟩
    refine ⟨c,List.mem_filter.mpr ⟨hc,?_⟩,hdots⟩
    simp only [ne_eq,decide_eq_true_eq]
    constructor
    · rintro rfl
      exact absurd hdots (by decide)
    · rintro rfl
      exact absurd hdots (by decide)

end Dots

end Nimburion.FilePath
