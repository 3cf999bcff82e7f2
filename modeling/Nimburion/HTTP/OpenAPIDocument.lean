import Nimburion.HTTP.OpenAPI

namespace Nimburion.HTTP.OpenAPI

open ByteText (Bytes ascii trimSpace trimSpace_trimSpace_ne_nil)

-- two lists of words read alike, letter for letter, whatever the words are cut into
inductive Alike : List Bytes → List Bytes → Prop
  | nil : Alike [] []
  | left {words words' : List Bytes} : Alike words words' → Alike ([] :: words) words'
  | right {words words' : List Bytes} : Alike words words' → Alike words ([] :: words')
  | letter (b : UInt8) {word word' : Bytes} {words words' : List Bytes} :
      Alike (word :: words) (word' :: words') → Alike ((b :: word) :: words) ((b :: word') :: words')

section Specification

variable (lib : Library)

-- the words of a path: cut at slashes, hyphens, underscores, dots and blanks
def pathWords (path : Bytes) : List Bytes :=
  ((trimSlashes path).splitOn 47).flatMap fun part => fieldsFunc (operationPart part)

-- the words in capitals; a path without any is called Root
def capitalWords (path : Bytes) : List Bytes :=
  if (pathWords path).flatMap (capitalize lib) = [] then [ascii "Root"]
  else (pathWords path).map (capitalize lib)

-- a segment that is one name in braces
def placeholder : Bytes → Option Bytes
  | 123 :: rest =>
    if rest.getLast? = some 125 ∧ trimSpace rest.dropLast ≠ [] then some (trimSpace rest.dropLast)
    else none
  | _ => none

def placeholders (path : Bytes) : List Bytes := (path.splitOn 47).filterMap placeholder

-- the routes of the list that go into the document, with their method and path there
def Documented (routes : List Route) (path : Bytes) (method : Method) : Prop :=
  ∃ route ∈ routes,methodOf lib route = some method ∧ trimSpace route.path ≠ [] ∧
    normalizeOpenAPIPath (trimSpace route.path) = path

def WellFormed (routes : List Route) (paths : Paths) : Prop :=
  (∀ path method,Documented lib routes path method →
      paths path method = some (buildOperation lib method path)) ∧
    (∀ path method op,paths path method = some op → Documented lib routes path method) ∧
    (∀ path method op path' method' op',paths path method = some op →
      paths path' method' = some op' → op.operationID = op'.operationID →
        path = path' ∧ method = method') ∧
    ∀ path method op,paths path method = some op → (op.parameters.map Parameter.name).Nodup ∧
      ∀ name,name ∈ op.parameters.map Parameter.name ↔ name ∈ placeholders path

-- no two paths of one method read alike, and no path repeats a placeholder
def Distinct (routes : List Route) : Prop :=
  (∀ method path path',Documented lib routes path method → Documented lib routes path' method →
      Alike (capitalWords lib path) (capitalWords lib path') → path = path') ∧
    ∀ path method,Documented lib routes path method → (placeholders path).Nodup

end Specification

section Words

theorem alike_of_flatten : (words words' : List Bytes) → words.flatten = words'.flatten →
    Alike words words'
  | [], [], _ => .nil
  | [] :: words, words', h => .left (alike_of_flatten words words' h)
  | words, [] :: words', h => .right (alike_of_flatten words words' h)
  | (b :: word) :: words, (b' :: word') :: words', h => by
    obtain ⟨rfl,hrest⟩ := List.cons.inj h
    exact .letter b (alike_of_flatten (word :: words) (word' :: words') hrest)
  | [], (_ :: _) :: _, h => by cases h
  | (_ :: _) :: _, [], h => by cases h

theorem alike_iff {words words' : List Bytes} :
    Alike words words' ↔ words.flatten = words'.flatten := by
  refine ⟨fun h => ?_,alike_of_flatten words words'⟩
  induction h with
  | nil => rfl
  | left h ih => exact ih
  | right h ih => exact ih
  | letter b h ih => exact congrArg (List.cons b) ih

end Words

section Identifiers

variable {lib : Library}

theorem foldl_append_flatMap {α : Type} (f : α → Bytes) (parts : List α) (base : Bytes) :
    parts.foldl (fun base part => base ++ f part) base = base ++ parts.flatMap f := by
  induction parts generalizing base with
  | nil => simp
  | cons part parts ih => rw [List.foldl_cons,ih,List.flatMap_cons,List.append_assoc]

theorem lower_method (m : Method) : lib.toLower (trimSpace m.name) = m.lowerName := by
  have htrim : trimSpace m.name = m.name := by cases m <;> decide
  rw [htrim,lib.lower_name]

theorem buildOperationID_eq (m : Method) (path : Bytes) :
    buildOperationID lib m path = m.lowerName ++ (capitalWords lib path).flatten := by
  have hwords : ((trimSlashes path).splitOn 47).flatMap
      (fun part => toPascalCase lib (operationPart part)) =
        (pathWords path).flatMap (capitalize lib) := by
    rw [pathWords,List.flatMap_assoc]
    rfl
  have hempty (text : Bytes) : m.lowerName ++ text = m.lowerName ↔ text = [] := by simp
  simp only [buildOperationID,lower_method,foldl_append_flatMap,hwords,capitalWords,hempty]
  split_ifs with hnone
  · rw [hnone,List.append_nil]
    simp
  · rw [List.flatMap_def]

theorem lowerName_append_inj {m m' : Method} {x y : Bytes}
    (h : m.lowerName ++ x = m'.lowerName ++ y) : m = m' ∧ x = y := by
  cases m <;> cases m' <;> simp_all [Method.lowerName,ascii]

theorem operationID_inj {m m' : Method} {path path' : Bytes}
    (h : buildOperationID lib m path = buildOperationID lib m' path') :
    m = m' ∧ Alike (capitalWords lib path) (capitalWords lib path') := by
  rw [buildOperationID_eq,buildOperationID_eq] at h
  obtain ⟨hmethod,htext⟩ := lowerName_append_inj h
  exact ⟨hmethod,alike_iff.mpr htext⟩

end Identifiers

section Parameters

theorem map_buildPathParameter (part : Bytes) :
    (buildPathParameter part).map Parameter.name = placeholder part := by
  cases part with
  | nil => rfl
  | cons b rest =>
    by_cases hb : b = 123
    · subst hb
      cases rest with
      | nil => rfl
      | cons c rest =>
        have hbraces : hasBraces (123 :: c :: rest) = ((c :: rest).getLast? == some 125) := rfl
        have hinner : innerText (123 :: c :: rest) = (c :: rest).dropLast := rfl
        rw [buildPathParameter,placeholder,hbraces,hinner]
        by_cases hlast : (c :: rest).getLast? = some 125
        · cases rest with
          | nil =>
            have hblank : trimSpace [] = [] := rfl
            simp [hblank]
          | cons d rest =>
            generalize trimSpace (c :: d :: rest).dropLast = name
            by_cases hname : name = []
            · simp [hname]
            · simp [hlast,hname]
        · simp [hlast]
    · have hnone : placeholder (b :: rest) = none := by
        rw [placeholder]
        rintro rest' heq
        exact hb (List.cons.inj heq).1
      have hbraces : hasBraces (b :: rest) = false := by simp [hasBraces,hb]
      rw [hnone,buildPathParameter,hbraces]
      simp

theorem filterMap_splitOn_trimSlashes {β : Type} (f : Bytes → Option β) (hf : f [] = none)
    (path : Bytes) :
    ((trimSlashes path).splitOn 47).filterMap f = (path.splitOn 47).filterMap f := by
  have hfront (s : Bytes) : ((s.dropWhile (· == 47)).splitOn 47).filterMap f =
      (s.splitOn 47).filterMap f := by
    induction s with
    | nil => rfl
    | cons b s ih =>
      by_cases hb : b = 47
      · rw [List.dropWhile_cons_of_pos (by simpa using hb),ih,hb,
          List.splitOn_cons_eq_if_modifyHead]
        simp [hf]
      · rw [List.dropWhile_cons_of_neg (by simpa using hb)]
  have hback (s : Bytes) : ((s.rdropWhile (· == 47)).splitOn 47).filterMap f =
      (s.splitOn 47).filterMap f := by
    induction s using List.reverseRecOn with
    | nil => rfl
    | append_singleton s b ih =>
      by_cases hb : b = 47
      · rw [List.rdropWhile_concat_pos _ _ _ (by simpa using hb),ih,hb,
          List.splitOn_append_cons_self]
        simp [hf]
      · rw [List.rdropWhile_concat_neg _ _ _ (by simpa using hb)]
  rw [trimSlashes,hback,hfront]

theorem names_buildPathParameters (path : Bytes) :
    (buildPathParameters path).map Parameter.name = placeholders path := by
  rw [buildPathParameters,List.map_filterMap,filterMap_splitOn_trimSlashes _ rfl,placeholders]
  congr 1
  funext part
  exact map_buildPathParameter part

end Parameters

section Documents

variable {lib : Library}

theorem key_inj {a b : NormalRoute} (h : a.key = b.key) : a.method = b.method ∧ a.path = b.path := by
  obtain ⟨m,p,_⟩ := a
  obtain ⟨m',p',_⟩ := b
  cases m <;> cases m' <;> simp_all [NormalRoute.key,Method.name,ascii]

def Plain (route : NormalRoute) : Prop := hasAnnotations route.annotations = false

-- the routes kept stand for all the routes met so far
theorem mem_foldl_addRoute {routes filtered : List NormalRoute}
    (hfiltered : ∀ route ∈ filtered,Plain route) (hroutes : ∀ route ∈ routes,Plain route) :
    (∀ route ∈ routes.foldl addRoute filtered,Plain route) ∧
      ∀ method path,(∃ route ∈ routes.foldl addRoute filtered,
          route.method = method ∧ route.path = path) ↔
        ∃ route ∈ filtered ++ routes,route.method = method ∧ route.path = path := by
  induction routes generalizing filtered with
  | nil => exact ⟨hfiltered,fun method path => by simp⟩
  | cons route routes ih =>
    have hroute : hasAnnotations route.annotations = false := hroutes route (by simp)
    have hrest : ∀ r ∈ routes,Plain r := fun r hr => hroutes r (by simp [hr])
    rw [List.foldl_cons]
    by_cases hseen : filtered.any (fun existing => existing.key == route.key) = true
    · have hadd : addRoute filtered route = filtered := by
        simp [addRoute,hseen,hroute]
      rw [hadd]
      obtain ⟨hplain,hiff⟩ := ih hfiltered hrest
      refine ⟨hplain,fun method path => (hiff method path).trans ?_⟩
      obtain ⟨existing,hmem,hkey⟩ := List.any_eq_true.mp hseen
      obtain ⟨hmethod,hpath⟩ := key_inj (beq_iff_eq.mp hkey)
      constructor
      · rintro ⟨r,hr,heq⟩
        exact ⟨r,by simp only [List.mem_append,List.mem_cons] at hr ⊢; tauto,heq⟩
      · rintro ⟨r,hr,rfl,rfl⟩
        simp only [List.mem_append,List.mem_cons] at hr
        rcases hr with hr | rfl | hr
        · exact ⟨r,by simp [hr],rfl,rfl⟩
        · exact ⟨existing,by simp [hmem],hmethod,hpath⟩
        · exact ⟨r,by simp [hr],rfl,rfl⟩
    · have hadd : addRoute filtered route = filtered ++ [route] := by
        rw [addRoute,if_neg hseen]
      rw [hadd]
      have hall : ∀ r ∈ filtered ++ [route],Plain r := by
        intro r hr
        rcases List.mem_append.mp hr with hr | hr
        · exact hfiltered r hr
        · rw [List.mem_singleton.mp hr]
          exact hroute
      obtain ⟨hplain,hiff⟩ := ih hall hrest
      refine ⟨hplain,fun method path => (hiff method path).trans ?_⟩
      rw [List.append_assoc,List.singleton_append]

theorem applyAnnotations_plain (op : Operation) {annotations : EndpointAnnotations}
    (h : hasAnnotations (normalizeAnnotations annotations) = false) :
    applyAnnotations op annotations = op := by
  simp only [hasAnnotations,Bool.or_eq_false_iff,bne_eq_false_iff_eq] at h
  obtain ⟨⟨⟨hsummary,hdescription⟩,hid⟩,htags⟩ := h
  simp only [applyAnnotations,hsummary,hdescription,hid,htags,ne_eq,not_true_eq_false,if_false]

theorem trimSpace_nil : trimSpace [] = [] := rfl

-- annotations without content stay so when they are normalised again
theorem normalizeAnnotations_plain {annotations : EndpointAnnotations}
    (h : hasAnnotations annotations = false) :
    hasAnnotations (normalizeAnnotations annotations) = false := by
  simp only [hasAnnotations,Bool.or_eq_false_iff,bne_eq_false_iff_eq] at h ⊢
  obtain ⟨⟨⟨hsummary,hdescription⟩,hid⟩,htags⟩ := h
  simp only [normalizeAnnotations,hsummary,hdescription,hid,htags,trimSpace_nil,normalizeTags,
    List.foldl_nil,and_self]

theorem normalizePath_ne_nil {path : Bytes} (h : trimSpace path ≠ []) :
    normalizeOpenAPIPath (trimSpace path) ≠ [] := by
  have hslash (rest : Bytes) :
      [47].intercalate (((47 :: rest).splitOn 47).map normalizeSegment) ≠ [] := by
    obtain ⟨part,parts,hparts⟩ := List.exists_cons_of_ne_nil (List.splitOn_ne_nil 47 rest)
    rw [List.splitOn_cons_eq_if_modifyHead,if_pos (by rfl),hparts,List.map_cons,List.map_cons,
      List.intercalate_cons_cons]
    simp
  have hne := trimSpace_trimSpace_ne_nil h
  obtain ⟨b,rest,hlist⟩ := List.exists_cons_of_ne_nil hne
  rw [normalizeOpenAPIPath,if_neg hne,hlist]
  by_cases hb : b = 47
  · subst hb
    simpa using hslash rest
  · simpa [hb] using hslash (b :: rest)

-- one operation per slot, whichever routes are written to it
theorem paths_foldl {routes : List NormalRoute} (hplain : ∀ route ∈ routes,Plain route)
    (hpaths : ∀ route ∈ routes,normalizeOpenAPIPath route.path ≠ []) (paths : Paths) (path : Bytes)
    (method : Method) :
    (routes.foldl (addOperation lib) paths) path method =
      if ∃ route ∈ routes,route.method = method ∧ normalizeOpenAPIPath route.path = path then
        some (buildOperation lib method path)
      else paths path method := by
  induction routes generalizing paths with
  | nil => simp
  | cons route routes ih =>
    have hroute : hasAnnotations route.annotations = false := hplain route (by simp)
    have hadd : addOperation lib paths route = setOperation paths
        (normalizeOpenAPIPath route.path) route.method
        (buildOperation lib route.method (normalizeOpenAPIPath route.path)) := by
      simp only [addOperation,hpaths route (by simp),if_false,
        applyAnnotations_plain _ (normalizeAnnotations_plain hroute)]
    rw [List.foldl_cons,hadd,ih (fun r hr => hplain r (by simp [hr]))
      fun r hr => hpaths r (by simp [hr])]
    by_cases hlater : ∃ r ∈ routes,r.method = method ∧ normalizeOpenAPIPath r.path = path
    · obtain ⟨r,hr,heq⟩ := hlater
      rw [if_pos ⟨r,hr,heq⟩,if_pos ⟨r,List.mem_cons_of_mem route hr,heq⟩]
    · rw [if_neg hlater,setOperation]
      by_cases hslot : path = normalizeOpenAPIPath route.path ∧ method = route.method
      · obtain ⟨rfl,rfl⟩ := hslot
        rw [if_pos ⟨rfl,rfl⟩,if_pos ⟨route,by simp,rfl,rfl⟩]
      · rw [if_neg hslot,if_neg]
        rintro ⟨r,hr,hm,hp⟩
        rcases List.mem_cons.mp hr with rfl | hr
        · exact hslot ⟨hp.symm,hm.symm⟩
        · exact hlater ⟨r,hr,hm,hp⟩

theorem normalizeRoute_eq_some {route : Route} {normal : NormalRoute}
    (h : normalizeRoute lib route = some normal) :
    methodOf lib route = some normal.method ∧ trimSpace route.path ≠ [] ∧
      normal.path = trimSpace route.path ∧
      normal.annotations = normalizeAnnotations route.annotations := by
  rw [normalizeRoute] at h
  split at h
  · cases h
  · rename_i method hmethod
    split_ifs at h with hblank
    cases h
    exact ⟨hmethod,hblank,rfl,rfl⟩

theorem normalizeRoute_of_documented {route : Route} {method : Method}
    (hmethod : methodOf lib route = some method) (hpath : trimSpace route.path ≠ []) :
    normalizeRoute lib route =
      some ⟨method,trimSpace route.path,normalizeAnnotations route.annotations⟩ := by
  rw [normalizeRoute,hmethod]
  simp only [hpath,if_false]

-- the document holds exactly the generated operations of the documented slots
theorem paths_buildSpec (title version : Bytes) {routes : List Route}
    (hplain : ∀ route ∈ routes,hasAnnotations (normalizeAnnotations route.annotations) = false)
    (path : Bytes) (method : Method) (op : Operation) :
    (buildSpec lib title version routes).paths path method = some op ↔
      Documented lib routes path method ∧ op = buildOperation lib method path := by
  have hnormal (normal : NormalRoute) (hmem : normal ∈ routes.filterMap (normalizeRoute lib)) :
      Plain normal ∧ normalizeOpenAPIPath normal.path ≠ [] := by
    obtain ⟨route,hroute,heq⟩ := List.mem_filterMap.mp hmem
    obtain ⟨_,hpath,hnpath,hann⟩ := normalizeRoute_eq_some heq
    refine ⟨?_,?_⟩
    · rw [Plain,hann]
      exact hplain route hroute
    · rw [hnpath]
      exact normalizePath_ne_nil hpath
  obtain ⟨hkept,hiff⟩ := mem_foldl_addRoute (fun r (hr : r ∈ []) => absurd hr (by simp))
    fun r hr => (hnormal r hr).1
  have hmem (normal : NormalRoute) : normal ∈ normalizeRoutes lib routes ↔
      normal ∈ (routes.filterMap (normalizeRoute lib)).foldl addRoute [] := by
    rw [normalizeRoutes,List.mem_mergeSort]
  have hpaths : ∀ normal ∈ normalizeRoutes lib routes,normalizeOpenAPIPath normal.path ≠ [] := by
    intro normal hn
    obtain ⟨r,hr,_,hpath⟩ := (hiff normal.method normal.path).mp ⟨normal,(hmem normal).mp hn,rfl,rfl⟩
    rw [← hpath]
    exact (hnormal r (by simpa using hr)).2
  have hdocumented : (∃ normal ∈ normalizeRoutes lib routes,
      normal.method = method ∧ normalizeOpenAPIPath normal.path = path) ↔
        Documented lib routes path method := by
    constructor
    · rintro ⟨normal,hn,rfl,rfl⟩
      obtain ⟨r,hr,hmethod,hpath⟩ :=
        (hiff normal.method normal.path).mp ⟨normal,(hmem normal).mp hn,rfl,rfl⟩
      obtain ⟨route,hroute,heq⟩ := List.mem_filterMap.mp (by simpa using hr)
      obtain ⟨hm,hne,hp,_⟩ := normalizeRoute_eq_some heq
      exact ⟨route,hroute,by rw [hm,hmethod],hne,by rw [← hp,hpath]⟩
    · rintro ⟨route,hroute,hmethod,hne,rfl⟩
      have hmemRoute := List.mem_filterMap.mpr ⟨route,hroute,normalizeRoute_of_documented hmethod hne⟩
      obtain ⟨normal,hn,hm,hp⟩ := (hiff method (trimSpace route.path)).mpr
        ⟨_,by simpa using hmemRoute,rfl,rfl⟩
      exact ⟨normal,(hmem normal).mpr hn,hm,by rw [hp]⟩
  have hbuilt : (buildSpec lib title version routes).paths =
      (normalizeRoutes lib routes).foldl (addOperation lib) fun _ _ => none := rfl
  rw [hbuilt,paths_foldl (fun normal hn => hkept normal ((hmem normal).mp hn)) hpaths]
  by_cases hdoc : Documented lib routes path method
  · rw [if_pos (hdocumented.mpr hdoc),Option.some.injEq,eq_comm]
    exact ⟨fun h => ⟨hdoc,h⟩,And.right⟩
  · rw [if_neg fun h => hdoc (hdocumented.mp h)]
    exact ⟨fun h => (Option.some_ne_none op h.symm).elim,fun h => (hdoc h.1).elim⟩

theorem openapi_wellFormed_iff (lib : Library) (title version : Bytes) (routes : List Route)
    (hplain : ∀ route ∈ routes,hasAnnotations (normalizeAnnotations route.annotations) = false) :
    WellFormed lib routes (buildSpec lib title version routes).paths ↔ Distinct lib routes := by
  have hpaths := @paths_buildSpec lib title version routes hplain
  have hslot {path : Bytes} {method : Method} (h : Documented lib routes path method) :
      (buildSpec lib title version routes).paths path method =
        some (buildOperation lib method path) := (hpaths path method _).mpr ⟨h,rfl⟩
  constructor
  · rintro ⟨_,_,hids,hparameters⟩
    refine ⟨fun method path path' h h' hwords => ?_,fun path method h => ?_⟩
    · have hsame : buildOperationID lib method path = buildOperationID lib method path' := by
        rw [buildOperationID_eq,buildOperationID_eq,alike_iff.mp hwords]
      exact (hids path method _ path' method _ (hslot h) (hslot h') hsame).1
    · have hnodup := (hparameters path method _ (hslot h)).1
      rwa [show (buildOperation lib method path).parameters = buildPathParameters path from rfl,
        names_buildPathParameters] at hnodup
  · rintro ⟨hwords,hnodup⟩
    refine ⟨fun path method h => hslot h,fun path method op h => ((hpaths path method op).mp h).1,
      fun path method op path' method' op' h h' hid => ?_,fun path method op h => ?_⟩
    · obtain ⟨hdoc,rfl⟩ := (hpaths path method op).mp h
      obtain ⟨hdoc',rfl⟩ := (hpaths path' method' op').mp h'
      obtain ⟨rfl,halike⟩ := operationID_inj hid
      exact ⟨hwords method path path' hdoc hdoc' halike,rfl⟩
    · obtain ⟨hdoc,rfl⟩ := (hpaths path method op).mp h
      have hnames : (buildOperation lib method path).parameters.map Parameter.name =
          placeholders path := names_buildPathParameters path
      rw [hnames]
      exact ⟨hnodup path method hdoc,fun name => Iff.rfl⟩

end Documents

section Inputs

def asciiUpper (b : UInt8) : UInt8 := if 97 ≤ b ∧ b ≤ 122 then b-32 else b

def asciiLower (b : UInt8) : UInt8 := if 65 ≤ b ∧ b ≤ 90 then b+32 else b

def asciiCase : Library where
  toUpper := List.map asciiUpper
  toLower := List.map asciiLower
  lower_name m := by cases m <;> decide

def getRoute (path : String) : Route := ⟨ascii "GET",ascii path,⟨[],[],[],[]⟩⟩

theorem documented_getRoutes {a b : String} {path : Bytes} {method : Method}
    (h : Documented asciiCase [getRoute a,getRoute b] path method) :
    path = normalizeOpenAPIPath (trimSpace (ascii a)) ∨
      path = normalizeOpenAPIPath (trimSpace (ascii b)) := by
  obtain ⟨route,hroute,_,_,rfl⟩ := h
  simp only [List.mem_cons,List.not_mem_nil,or_false] at hroute
  rcases hroute with rfl | rfl
  · exact Or.inl rfl
  · exact Or.inr rfl

theorem plain_getRoutes (a b : String) : ∀ route ∈ [getRoute a,getRoute b],
    hasAnnotations (normalizeAnnotations route.annotations) = false := by
  intro route hroute
  simp only [List.mem_cons,List.not_mem_nil,or_false] at hroute
  rcases hroute with rfl | rfl <;> rfl

theorem users_document : WellFormed asciiCase [getRoute "/users/:id",getRoute "/users"]
    (buildSpec asciiCase (ascii "Users") [] [getRoute "/users/:id",getRoute "/users"]).paths := by
  refine (openapi_wellFormed_iff asciiCase _ _ _ (plain_getRoutes _ _)).mpr ⟨?_,?_⟩
  · intro method path path' h h' hwords
    have hspelled : (capitalWords asciiCase
        (normalizeOpenAPIPath (trimSpace (ascii "/users/:id")))).flatten ≠
          (capitalWords asciiCase (normalizeOpenAPIPath (trimSpace (ascii "/users")))).flatten := by
      decide +kernel
    rw [alike_iff] at hwords
    rcases documented_getRoutes h with rfl | rfl <;> rcases documented_getRoutes h' with rfl | rfl
    · rfl
    · exact absurd hwords hspelled
    · exact absurd hwords.symm hspelled
    · rfl
  · intro path method h
    rcases documented_getRoutes h with rfl | rfl <;> decide +kernel

-- a hyphen and an underscore give one identifier
theorem hyphen_and_underscore_collide :
    ¬∀ (lib : Library) (title version : Bytes) (routes : List Route),
      (∀ route ∈ routes,hasAnnotations (normalizeAnnotations route.annotations) = false) →
        WellFormed lib routes (buildSpec lib title version routes).paths := by
  intro hclaim
  obtain ⟨hslot,_,hids,_⟩ := hclaim asciiCase [] [] [getRoute "/a-b",getRoute "/a_b"]
    (plain_getRoutes _ _)
  have hdoc : Documented asciiCase [getRoute "/a-b",getRoute "/a_b"] (ascii "/a-b") .get :=
    ⟨getRoute "/a-b",by simp,by decide +kernel⟩
  have hdoc' : Documented asciiCase [getRoute "/a-b",getRoute "/a_b"] (ascii "/a_b") .get :=
    ⟨getRoute "/a_b",by simp,by decide +kernel⟩
  have hsame : buildOperationID asciiCase .get (ascii "/a-b") =
      buildOperationID asciiCase .get (ascii "/a_b") := by decide +kernel
  have hequal := (hids _ _ _ _ _ _ (hslot _ _ hdoc) (hslot _ _ hdoc') hsame).1
  exact absurd hequal (by decide)

end Inputs

end Nimburion.HTTP.OpenAPI
