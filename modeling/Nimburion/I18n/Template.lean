import Nimburion.I18n.Catalog

namespace Nimburion.I18n

open ByteText Replace

-- a template as one scan from left to right cuts it
inductive Piece where
  | byte (b : UInt8)
  | hole (name : Bytes) (double : Bool)
  deriving DecidableEq, Repr

section Specification

variable (names : List Bytes)

def closes (s : Bytes) (double : Bool) (name : Bytes) : Bool :=
  decide (name ∈ names) && (spell name double).isPrefixOf s

-- the double form is tried first, and of several names the one that closes first
def placeholderAt (s : Bytes) : Option (Bytes × Bool) :=
  (((s.drop 2).inits.find? (closes names s true)).map (·,true)).or
    (((s.drop 1).inits.find? (closes names s false)).map (·,false))

def scanFrom : ℕ → Bytes → List Piece
  | _,[] => []
  | skip+1,_ :: s => scanFrom skip s
  | 0,b :: s =>
    match placeholderAt names (b :: s) with
    | some (name,double) => .hole name double :: scanFrom ((spell name double).length-1) s
    | none => .byte b :: scanFrom 0 s

def scan (template : Bytes) : List Piece := scanFrom names 0 template

-- the piece with the placeholders chosen by filled replaced by their values
def render (value : Bytes → Bytes) (filled : Bytes → Bool → Bool) : Piece → Bytes
  | .byte b => [b]
  | .hole name double => if filled name double then value name else spell name double

def simultaneous (value : Bytes → Bytes) (template : Bytes) : Bytes :=
  (scan names template).flatMap (render value fun _ _ => true)

-- what is filled in when the loop comes to a spelling of key
def filledBefore (earlier : List Bytes) (key : Bytes) (double : Bool) (name : Bytes)
    (double' : Bool) : Bool :=
  decide (name ∈ earlier) || (decide (name = key) && double' && !double)

-- the text of the code at that time
def outBefore (value : Bytes → Bytes) (template : Bytes) (earlier : List Bytes) (key : Bytes)
    (double : Bool) : Bytes :=
  let out := earlier.foldl (replaceKey value) template
  if double then out else replaceAll (spell key true) (value key) out

-- what the code replaces stands where the scan found a placeholder of that name
def Verbatim (value : Bytes → Bytes) (template : Bytes) (order : List Bytes) : Prop :=
  ∀ earlier key later, order = earlier ++ key :: later → ∀ double,
    ∀ l ∈ replaced (spell key double) (outBefore value template earlier key double),
      AtTarget (render value (filledBefore earlier key double)) (· = .hole key double)
        (scan names template) l

-- with the names before it filled in, a name is spelt only where the scan found it
def NoNewPlaceholder (value : Bytes → Bytes) (template : Bytes) (order : List Bytes) : Prop :=
  ∀ earlier key later, order = earlier ++ key :: later → ∀ double,
    OnlyTargets (render value (filledBefore earlier key double)) (· = .hole key double)
      (spell key double) (scan names template)

end Specification

section Scan

variable {names : List Bytes}

theorem spell_ne_nil (key : Bytes) (double : Bool) : spell key double ≠ [] := by
  cases double <;> simp [spell,ascii]

theorem placeholderAt_spec {s name : Bytes} {double : Bool}
    (h : placeholderAt names s = some (name,double)) :
    name ∈ names ∧ spell name double <+: s := by
  have hclose {d : Bool} {candidates : List Bytes}
      (hfind : candidates.find? (closes names s d) = some name) :
      name ∈ names ∧ spell name d <+: s := by
    have hspec := List.find?_some hfind
    rw [closes,Bool.and_eq_true,decide_eq_true_eq,List.isPrefixOf_iff_prefix] at hspec
    exact hspec
  rw [placeholderAt,Option.or_eq_some_iff] at h
  rcases h with h | ⟨_,h⟩
  · obtain ⟨name',hfind,heq⟩ := Option.map_eq_some_iff.mp h
    cases heq
    exact hclose hfind
  · obtain ⟨name',hfind,heq⟩ := Option.map_eq_some_iff.mp h
    cases heq
    exact hclose hfind

theorem scanFrom_drop (k : ℕ) (s : Bytes) : scanFrom names k s = scan names (s.drop k) := by
  induction s generalizing k with
  | nil => cases k <;> rfl
  | cons b s ih =>
    cases k with
    | zero => rfl
    | succ k => exact ih k

-- the induction of the scan: a placeholder is taken whole
theorem scan_hole {b : UInt8} {s name : Bytes} {double : Bool}
    (h : placeholderAt names (b :: s) = some (name,double)) : ∃ rest,
    b :: s = spell name double ++ rest ∧ scan names (b :: s) = .hole name double :: scan names rest := by
  obtain ⟨rest,hrest⟩ := (placeholderAt_spec h).2
  refine ⟨rest,hrest.symm,?_⟩
  rw [scan,scanFrom,h]
  simp only
  rw [scanFrom_drop]
  obtain ⟨c,w,hw⟩ := List.exists_cons_of_ne_nil (spell_ne_nil name double)
  rw [hw,List.cons_append] at hrest
  rw [hw,List.length_cons,Nat.add_sub_cancel,← (List.cons.inj hrest).2,List.drop_left]

theorem scan_byte {b : UInt8} {s : Bytes} (h : placeholderAt names (b :: s) = none) :
    scan names (b :: s) = .byte b :: scan names s := by
  rw [scan,scanFrom,h]
  rfl

theorem scan_text (value : Bytes → Bytes) (s : Bytes) :
    (scan names s).flatMap (render value fun _ _ => false) = s := by
  induction hn : s.length using Nat.strong_induction_on generalizing s with
  | _ n ih =>
    cases s with
    | nil => rfl
    | cons b s =>
      cases h : placeholderAt names (b :: s) with
      | none =>
        rw [scan_byte h,List.flatMap_cons,ih s.length (by rw [← hn]; simp) s rfl]
        rfl
      | some p =>
        obtain ⟨rest,htext,hscan⟩ := scan_hole h
        have hlen := congrArg List.length htext
        have hpos := List.length_pos_iff.mpr (spell_ne_nil p.1 p.2)
        rw [List.length_append] at hlen
        rw [hscan,List.flatMap_cons,ih rest.length (by omega) rest rfl,htext]
        rfl

theorem mem_names_of_mem_scan {s : Bytes} {name : Bytes} {double : Bool}
    (h : Piece.hole name double ∈ scan names s) : name ∈ names := by
  induction hn : s.length using Nat.strong_induction_on generalizing s with
  | _ n ih =>
    cases s with
    | nil => cases h
    | cons b s =>
      cases hp : placeholderAt names (b :: s) with
      | none =>
        rw [scan_byte hp] at h
        rcases List.mem_cons.mp h with heq | h
        · cases heq
        · exact ih s.length (by rw [← hn]; simp) h rfl
      | some p =>
        obtain ⟨rest,htext,hscan⟩ := scan_hole hp
        have hlen := congrArg List.length htext
        have hpos := List.length_pos_iff.mpr (spell_ne_nil p.1 p.2)
        rw [List.length_append] at hlen
        rw [hscan] at h
        rcases List.mem_cons.mp h with heq | h
        · cases heq
          exact (placeholderAt_spec hp).1
        · exact ih rest.length (by omega) h rfl

end Scan

section Loop

variable {names : List Bytes} {value : Bytes → Bytes} {template : Bytes}

-- the text with the names of a list filled in
def textAfter (names : List Bytes) (value : Bytes → Bytes) (template : Bytes)
    (done : List Bytes) : Bytes :=
  (scan names template).flatMap (render value fun name _ => decide (name ∈ done))

theorem flatMap_render_congr {ps : List Piece} {filled filled' : Bytes → Bool → Bool}
    (h : ∀ name double, Piece.hole name double ∈ ps → filled name double = filled' name double) :
    ps.flatMap (render value filled) = ps.flatMap (render value filled') := by
  refine List.flatMap_congr fun p hp => ?_
  cases p with
  | byte b => rfl
  | hole name double => rw [render,render,h name double hp]

theorem filledBefore_double (earlier : List Bytes) (key : Bytes) :
    filledBefore earlier key true = fun name _ => decide (name ∈ earlier) := by
  funext name double
  simp [filledBefore]

theorem render_target {earlier : List Bytes} {key : Bytes} (hnew : key ∉ earlier) {double : Bool}
    (p : Piece) (hp : p = .hole key double) :
    render value (filledBefore earlier key double) p = spell key double := by
  subst hp
  simp [render,filledBefore,hnew]

-- one ReplaceAll takes the text from one stage to the next
theorem replace_double {earlier : List Bytes} {key : Bytes} (hnew : key ∉ earlier)
    (h : OnlyTargets (render value (filledBefore earlier key true)) (· = .hole key true)
      (spell key true) (scan names template)) :
    replaceAll (spell key true) (value key)
        ((scan names template).flatMap (render value (filledBefore earlier key true))) =
      (scan names template).flatMap (render value (filledBefore earlier key false)) := by
  refine replaceAll_targets (spell_ne_nil key true) (render_target hnew) ?_ ?_ h
  · rintro p rfl
    simp [render,filledBefore]
  · intro p hp
    cases p with
    | byte b => rfl
    | hole name double =>
      rw [render,render]
      have hfilled : filledBefore earlier key false name double =
          filledBefore earlier key true name double := by
        simp only [filledBefore,Bool.not_false,Bool.and_true,Bool.not_true,Bool.and_false,
          Bool.or_false,Bool.or_eq_left_iff_imp,Bool.and_eq_true,decide_eq_true_eq]
        rintro ⟨rfl,rfl⟩
        exact absurd rfl hp
      rw [hfilled]

theorem replace_single {earlier : List Bytes} {key : Bytes} (hnew : key ∉ earlier)
    (h : OnlyTargets (render value (filledBefore earlier key false)) (· = .hole key false)
      (spell key false) (scan names template)) :
    replaceAll (spell key false) (value key)
        ((scan names template).flatMap (render value (filledBefore earlier key false))) =
      textAfter names value template (earlier ++ [key]) := by
  refine replaceAll_targets (spell_ne_nil key false) (render_target hnew) ?_ ?_ h
  · rintro p rfl
    simp [render]
  · intro p hp
    cases p with
    | byte b => rfl
    | hole name double =>
      rw [render,render]
      have hfilled : decide (name ∈ earlier ++ [key]) =
          filledBefore earlier key false name double := by
        cases double with
        | true => simp [filledBefore]
        | false =>
          have hne : name ≠ key := by
            rintro rfl
            exact hp rfl
          simp [filledBefore,hne]
      rw [hfilled]

def StepVerbatim (names : List Bytes) (value : Bytes → Bytes) (template : Bytes)
    (earlier : List Bytes) (key : Bytes) : Prop :=
  ∀ double, ∀ l ∈ replaced (spell key double) (outBefore value template earlier key double),
    AtTarget (render value (filledBefore earlier key double)) (· = .hole key double)
      (scan names template) l

def StepApart (names : List Bytes) (value : Bytes → Bytes) (template : Bytes)
    (earlier : List Bytes) (key : Bytes) : Prop :=
  ∀ double, OnlyTargets (render value (filledBefore earlier key double)) (· = .hole key double)
    (spell key double) (scan names template)

section Step

variable {earlier : List Bytes} {key : Bytes}
variable (hout : earlier.foldl (replaceKey value) template = textAfter names value template earlier)
variable (hnew : key ∉ earlier)

include hout

theorem outBefore_double : outBefore value template earlier key true =
    (scan names template).flatMap (render value (filledBefore earlier key true)) := by
  rw [filledBefore_double]
  exact hout

include hnew

theorem outBefore_single
    (h : OnlyTargets (render value (filledBefore earlier key true)) (· = .hole key true)
      (spell key true) (scan names template)) :
    outBefore value template earlier key false =
      (scan names template).flatMap (render value (filledBefore earlier key false)) := by
  have hdouble : outBefore value template earlier key false =
      replaceAll (spell key true) (value key) (outBefore value template earlier key true) := rfl
  rw [hdouble,outBefore_double hout,replace_double hnew h]

theorem step_iff :
    StepVerbatim names value template earlier key ↔ StepApart names value template earlier key := by
  have hone (double : Bool) (htext : outBefore value template earlier key double =
      (scan names template).flatMap (render value (filledBefore earlier key double))) :
      (∀ l ∈ replaced (spell key double) (outBefore value template earlier key double),
        AtTarget (render value (filledBefore earlier key double)) (· = .hole key double)
          (scan names template) l) ↔
      OnlyTargets (render value (filledBefore earlier key double)) (· = .hole key double)
        (spell key double) (scan names template) := by
    rw [htext]
    exact ⟨only_of_replaced_atTarget (spell_ne_nil key double) (render_target hnew),
      fun h _ hl => replaced_atTarget_of_only (spell_ne_nil key double) (render_target hnew) h hl⟩
  have hfirst := hone true (outBefore_double hout)
  constructor
  · intro h
    have htrue := hfirst.mp (h true)
    have hsecond := hone false (outBefore_single hout hnew htrue)
    intro double
    cases double with
    | true => exact htrue
    | false => exact hsecond.mp (h false)
  · intro h
    have hsecond := hone false (outBefore_single hout hnew (h true))
    intro double
    cases double with
    | true => exact hfirst.mpr (h true)
    | false => exact hsecond.mpr (h false)

theorem step_out (h : StepApart names value template earlier key) :
    (earlier ++ [key]).foldl (replaceKey value) template =
      textAfter names value template (earlier ++ [key]) := by
  have hkey : (earlier ++ [key]).foldl (replaceKey value) template =
      replaceAll (spell key false) (value key) (outBefore value template earlier key false) := by
    rw [List.foldl_append]
    rfl
  rw [hkey,outBefore_single hout hnew (h true),replace_single hnew (h false)]

end Step

-- along the loop: while nothing but placeholders was replaced, the text is the template with
-- the names so far filled in
theorem run_out {order : List Bytes} (hnodup : order.Nodup)
    (h : ∀ earlier key later, order = earlier ++ key :: later →
      earlier.foldl (replaceKey value) template = textAfter names value template earlier →
        StepApart names value template earlier key) :
    ∀ done rest, order = done ++ rest →
      done.foldl (replaceKey value) template = textAfter names value template done := by
  intro done
  induction done using List.reverseRecOn with
  | nil =>
    intro rest _
    rw [textAfter]
    have hnone : (fun name (_ : Bool) => decide (name ∈ ([] : List Bytes))) =
        fun _ _ => false := by simp
    rw [hnone,scan_text]
    rfl
  | append_singleton done key ih =>
    intro rest horder
    rw [List.append_assoc,List.singleton_append] at horder
    have hout := ih (key :: rest) horder
    have hnew : key ∉ done := by
      rw [horder,List.nodup_append] at hnodup
      exact fun hmem => hnodup.2.2 key hmem key (by simp) rfl
    exact step_out hout hnew (h done key rest horder hout)

theorem verbatim_iff {order : List Bytes} (hnodup : order.Nodup) :
    Verbatim names value template order ↔ NoNewPlaceholder names value template order := by
  have hnew {earlier : List Bytes} {key : Bytes} {later : List Bytes}
      (horder : order = earlier ++ key :: later) : key ∉ earlier := by
    rw [horder,List.nodup_append] at hnodup
    exact fun hmem => hnodup.2.2 key hmem key (by simp) rfl
  constructor
  · intro h earlier key later horder
    have hrun := run_out hnodup fun earlier key later horder hout =>
      (step_iff hout (hnew horder)).mp (h earlier key later horder)
    exact (step_iff (hrun earlier (key :: later) horder) (hnew horder)).mp
      (h earlier key later horder)
  · intro h earlier key later horder
    have hrun := run_out hnodup fun earlier key later horder _ => h earlier key later horder
    exact (step_iff (hrun earlier (key :: later) horder) (hnew horder)).mpr
      (h earlier key later horder)

theorem run_simultaneous {order : List Bytes} (hperm : order.Perm names) (hnodup : names.Nodup)
    (h : NoNewPlaceholder names value template order) :
    order.foldl (replaceKey value) template = simultaneous names value template := by
  have hrun := run_out (hperm.nodup_iff.mpr hnodup) fun earlier key later horder _ =>
    h earlier key later horder
  rw [hrun order [] (List.append_nil order).symm]
  refine flatMap_render_congr fun name double hmem => ?_
  exact decide_eq_true (hperm.mem_iff.mpr (mem_names_of_mem_scan hmem))

end Loop

section Claim

variable {V : Type} (dyn : Dynamic V)

theorem sortStrings_perm (keys : List Bytes) : (sortStrings keys).Perm keys :=
  List.perm_insertionSort _ keys

theorem applyTemplateParams_eq (template : Bytes) (params : Params V) :
    applyTemplateParams dyn template params =
      (sortStrings params.names).foldl (replaceKey (printed dyn params)) template := by
  rw [applyTemplateParams]
  split_ifs with hempty
  · simp [Params.names,hempty,sortStrings]
  · rfl

theorem interpolation_iff (template : Bytes) (params : Params V) :
    (applyTemplateParams dyn template params =
          simultaneous params.names (printed dyn params) template ∧
        Verbatim params.names (printed dyn params) template (sortStrings params.names) ↔
      NoNewPlaceholder params.names (printed dyn params) template (sortStrings params.names)) ∧
    ∀ order, order.Perm params.names →
      NoNewPlaceholder params.names (printed dyn params) template order →
      order.foldl (replaceKey (printed dyn params)) template =
        simultaneous params.names (printed dyn params) template := by
  have hsorted := sortStrings_perm params.names
  have hnodup := hsorted.nodup_iff.mpr params.unique
  refine ⟨?_,fun order hperm h => run_simultaneous hperm params.unique h⟩
  rw [verbatim_iff hnodup,applyTemplateParams_eq]
  exact ⟨And.right,fun h => ⟨run_simultaneous hsorted params.unique h,h⟩⟩

-- T fills the template it looked up, when there is one for a key that is not blank
theorem translate_simultaneous {catalog : Catalog} {locale key : Bytes} {args : List V}
    (hkey : trimSpace key ≠ []) (htemplate : catalog.lookup locale (trimSpace key) ≠ [])
    (h : NoNewPlaceholder (parseTemplateArgs dyn args).names
      (printed dyn (parseTemplateArgs dyn args)) (catalog.lookup locale (trimSpace key))
      (sortStrings (parseTemplateArgs dyn args).names)) :
    translate dyn (some catalog) locale key args =
      simultaneous (parseTemplateArgs dyn args).names (printed dyn (parseTemplateArgs dyn args))
        (catalog.lookup locale (trimSpace key)) := by
  have hparams := (parseTemplateArgs dyn args).unique
  simp only [translate,hkey,htemplate,if_false]
  rw [applyTemplateParams_eq]
  exact run_simultaneous (sortStrings_perm _) hparams h

def textValues : Dynamic Bytes where
  sprint v := v.getD (ascii "<nil>")
  asString := some
  asParams _ := none

def nestedParams : Params Bytes := ⟨[(ascii "a",ascii "\x7bb\x7d"),(ascii "b",ascii "x")],by decide⟩

theorem value_substituted_again :
    ¬∀ (V : Type) (dyn : Dynamic V) (template : Bytes) (params : Params V),
      applyTemplateParams dyn template params =
        simultaneous params.names (printed dyn params) template := by
  intro hclaim
  have heq := hclaim Bytes textValues (ascii "\x7ba\x7d") nestedParams
  exact absurd heq (by decide +kernel)

end Claim

end Nimburion.I18n
