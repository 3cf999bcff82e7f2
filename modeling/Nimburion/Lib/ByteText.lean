import Mathlib.Tactic.Common
import Mathlib.Data.List.DropRight

-- Go's strings.TrimSpace and strings.Fields on any bytes, valid UTF-8 or not
namespace Nimburion.ByteText

abbrev Bytes := List UInt8

scoped instance lawfulBEqBytes : LawfulBEq Bytes := inferInstance

-- the bytes of an ASCII literal of the source
def ascii (s : String) : Bytes := s.toList.map fun c => UInt8.ofNat c.toNat

def asciiSpace (b : UInt8) : Bool := (9 ≤ b && b ≤ 13) || b == 32

-- U+0085 and U+00A0
def space2 (a b : UInt8) : Bool := a == 0xC2 && (b == 0x85 || b == 0xA0)

-- U+1680, U+2000 to U+200A, U+2028, U+2029, U+202F, U+205F and U+3000
def space3 (a b c : UInt8) : Bool :=
  (a == 0xE1 && b == 0x9A && c == 0x80) ||
    (a == 0xE2 && b == 0x80 && ((0x80 ≤ c && c ≤ 0x8A) || c == 0xA8 || c == 0xA9 || c == 0xAF)) ||
    (a == 0xE2 && b == 0x81 && c == 0x9F) || (a == 0xE3 && b == 0x80 && c == 0x80)

-- how many bytes the white space at the front takes; no continuation byte starts one
def spaceWidth : Bytes → ℕ
  | [] => 0
  | [a] => if asciiSpace a then 1 else 0
  | [a,b] => if asciiSpace a then 1 else if space2 a b then 2 else 0
  | a :: b :: c :: _ =>
      if asciiSpace a then 1 else if space2 a b then 2 else if space3 a b c then 3 else 0

structure Piece where
  space : Bool
  bytes : Bytes
  deriving DecidableEq, Repr

-- the first argument counts the bytes that belong to the piece before
def piecesFrom : ℕ → Bytes → List Piece
  | _, [] => []
  | k+1, _ :: bs => piecesFrom k bs
  | 0, b :: bs => match spaceWidth (b :: bs) with
      | 0 => ⟨false,[b]⟩ :: piecesFrom 0 bs
      | w+1 => ⟨true,(b :: bs).take (w+1)⟩ :: piecesFrom w bs

def pieces (bs : Bytes) : List Piece := piecesFrom 0 bs

def join (ps : List Piece) : Bytes := ps.flatMap Piece.bytes

def trimSpace (bs : Bytes) : Bytes :=
  join (((pieces bs).dropWhile Piece.space).rdropWhile Piece.space)

def fields (bs : Bytes) : List Bytes :=
  (((pieces bs).splitOnP Piece.space).map join).filter fun word => !word.isEmpty

section Pieces

theorem spaceWidth_le (bs : Bytes) : spaceWidth bs ≤ bs.length := by
  rcases bs with _ | ⟨a,_ | ⟨b,_ | ⟨c,bs⟩⟩⟩
  · rfl
  · simp only [spaceWidth,List.length_cons,List.length_nil]
    split_ifs <;> omega
  · simp only [spaceWidth,List.length_cons,List.length_nil]
    split_ifs <;> omega
  · simp only [spaceWidth,List.length_cons]
    split_ifs <;> omega

theorem spaceWidth_ascii_cons {b : UInt8} (hb : b < 128) (bs : Bytes) :
    spaceWidth (b :: bs) = if asciiSpace b then 1 else 0 := by
  have h2 : ∀ c, space2 b c = false := by
    intro c
    simp only [space2,Bool.and_eq_false_iff,beq_eq_false_iff_ne]
    exact .inl fun h => absurd (h ▸ hb) (by decide)
  have h3 : ∀ c d, space3 b c d = false := by
    intro c d
    have hne : ∀ x : UInt8, ¬ x < 128 → (b == x) = false := fun x hx =>
      beq_eq_false_iff_ne.mpr fun h => hx (h ▸ hb)
    simp [space3,hne 0xE1 (by decide),hne 0xE2 (by decide),hne 0xE3 (by decide)]
  rcases bs with _ | ⟨c,_ | ⟨d,bs⟩⟩
  · rfl
  · simp [spaceWidth,h2]
  · simp [spaceWidth,h2,h3]

-- an ASCII byte ends whatever came before it
theorem spaceWidth_append {b : UInt8} (hb : b < 128) (x : UInt8) (xs ys : Bytes) :
    spaceWidth (x :: xs ++ b :: ys) = spaceWidth (x :: xs) := by
  have hne : ∀ c : UInt8, ¬ c < 128 → (b == c) = false := fun c hc =>
    beq_eq_false_iff_ne.mpr fun h => hc (h ▸ hb)
  have h2 : ∀ a, space2 a b = false := by
    intro a
    simp [space2,hne 0x85 (by decide),hne 0xA0 (by decide)]
  have hlow : decide (0x80 ≤ b) = false := decide_eq_false (UInt8.not_le.mpr hb)
  have h3 : ∀ a c, space3 a b c = false := by
    intro a c
    simp [space3,hne 0x9A (by decide),hne 0x80 (by decide),hne 0x81 (by decide)]
  have h3' : ∀ a c, space3 a c b = false := by
    intro a c
    simp [space3,hlow,hne 0x80 (by decide),hne 0xA8 (by decide),hne 0xA9 (by decide),
      hne 0xAF (by decide),hne 0x9F (by decide)]
  rcases xs with _ | ⟨c,_ | ⟨d,xs⟩⟩
  · cases ys <;> simp [spaceWidth,h2,h3]
  · simp [spaceWidth,h3']
  · simp [spaceWidth]

theorem piecesFrom_append {b : UInt8} (hb : b < 128) {k : ℕ} {xs : Bytes} (hk : k ≤ xs.length)
    (ys : Bytes) : piecesFrom k (xs ++ b :: ys) = piecesFrom k xs ++ piecesFrom 0 (b :: ys) := by
  induction xs generalizing k with
  | nil =>
    obtain rfl : k = 0 := Nat.le_zero.mp hk
    rfl
  | cons x xs ih =>
    cases k with
    | succ k => exact ih (Nat.le_of_succ_le_succ hk)
    | zero =>
      have hwidth := spaceWidth_append hb x xs ys
      have hle := spaceWidth_le (x :: xs)
      simp only [List.cons_append] at hwidth
      rw [List.cons_append,piecesFrom,piecesFrom,hwidth]
      cases hw : spaceWidth (x :: xs) with
      | zero => exact congrArg _ (ih (Nat.zero_le _))
      | succ w =>
        rw [hw] at hle
        have hlen : w ≤ xs.length := Nat.le_of_succ_le_succ hle
        simp only [List.cons_append,List.take_succ_cons]
        rw [ih hlen,List.take_append_of_le_length hlen]

theorem pieces_append {b : UInt8} (hb : b < 128) (xs ys : Bytes) :
    pieces (xs ++ b :: ys) = pieces xs ++ pieces (b :: ys) :=
  piecesFrom_append hb (Nat.zero_le _) ys

theorem pieces_ascii_cons {b : UInt8} (hb : b < 128) (bs : Bytes) :
    pieces (b :: bs) = ⟨asciiSpace b,[b]⟩ :: pieces bs := by
  rw [pieces,piecesFrom,spaceWidth_ascii_cons hb]
  cases hs : asciiSpace b with
  | false => rfl
  | true => rfl

theorem join_piecesFrom (k : ℕ) (bs : Bytes) : join (piecesFrom k bs) = bs.drop k := by
  induction bs generalizing k with
  | nil => simp [piecesFrom,join]
  | cons b bs ih =>
    cases k with
    | succ k => simpa [piecesFrom] using ih k
    | zero =>
      rw [piecesFrom]
      cases hw : spaceWidth (b :: bs) with
      | zero => simpa [join] using ih 0
      | succ w =>
        have hrest := ih w
        simp only [join,List.flatMap_cons] at hrest ⊢
        rw [hrest]
        exact List.take_append_drop (w+1) (b :: bs)

theorem join_pieces (bs : Bytes) : join (pieces bs) = bs := join_piecesFrom 0 bs

end Pieces

-- bytes that neither are white space nor take part in any
def Plain (word : Bytes) : Prop := ∀ b ∈ word, b < 128 ∧ asciiSpace b = false

instance (word : Bytes) : Decidable (Plain word) := List.decidableBAll _ word

section Words

theorem pieces_plain {word : Bytes} (h : Plain word) :
    ∀ p ∈ pieces word, p.space = false := by
  induction word with
  | nil => exact fun p hp => absurd hp List.not_mem_nil
  | cons b word ih =>
    obtain ⟨hb,hword⟩ := List.forall_mem_cons.mp h
    rw [pieces_ascii_cons hb.1,List.forall_mem_cons]
    exact ⟨hb.2,ih hword⟩

theorem fields_plain {word : Bytes} (h : Plain word) (hne : word ≠ []) : fields word = [word] := by
  have hsplit := List.splitOnP_eq_singleton (pieces_plain h)
  simp [fields,hsplit,join_pieces,hne]

theorem fields_append_blank (xs ys : Bytes) :
    fields (xs ++ 32 :: ys) = fields xs ++ fields ys := by
  rw [fields,pieces_append (by decide),pieces_ascii_cons (by decide),
    List.splitOnP_append_cons _ _ (by rfl),List.map_append,List.filter_append]
  rfl

theorem trimSpace_crlf {a b : UInt8} {body : Bytes} (hfirst : Plain [a]) (hlast : Plain [b])
    (hbody : ∃ mid, body = a :: mid ++ [b]) : trimSpace (body ++ [13,10]) = body := by
  obtain ⟨mid,rfl⟩ := hbody
  obtain ⟨ha,hasp⟩ := hfirst a (List.mem_singleton.mpr rfl)
  obtain ⟨hb,hbsp⟩ := hlast b (List.mem_singleton.mpr rfl)
  have hbody : pieces (a :: mid ++ [b]) = ⟨false,[a]⟩ :: pieces mid ++ [⟨false,[b]⟩] := by
    rw [List.cons_append,pieces_ascii_cons ha,pieces_append hb,pieces_ascii_cons hb,hasp,hbsp]
    rfl
  have hall : pieces (a :: mid ++ [b] ++ [13,10]) =
      pieces (a :: mid ++ [b]) ++ [⟨true,[13]⟩] ++ [⟨true,[10]⟩] := by
    rw [pieces_append (by decide),pieces_ascii_cons (by decide),pieces_ascii_cons (by decide)]
    simp [asciiSpace,pieces,piecesFrom]
  have hdrop : (pieces (a :: mid ++ [b] ++ [13,10])).dropWhile Piece.space =
      pieces (a :: mid ++ [b]) ++ [⟨true,[13]⟩] ++ [⟨true,[10]⟩] := by
    rw [hall,hbody]
    rfl
  rw [trimSpace,hdrop,List.rdropWhile_concat_pos _ _ _ (by rfl),
    List.rdropWhile_concat_pos _ _ _ (by rfl),hbody,
    List.rdropWhile_concat_neg _ _ _ (by simp),← hbody,join_pieces]

theorem asciiSpace_of_spaceWidth {b : UInt8} {bs : Bytes} (h : spaceWidth (b :: bs) = 0) :
    asciiSpace b = false := by
  by_contra hb
  rw [Bool.not_eq_false] at hb
  rcases bs with _ | ⟨c,_ | ⟨d,bs⟩⟩ <;> simp [spaceWidth,hb] at h

theorem bytes_of_word {k : ℕ} {bs : Bytes} {p : Piece} (hp : p ∈ piecesFrom k bs)
    (hspace : p.space = false) : ∃ b, p.bytes = [b] ∧ asciiSpace b = false := by
  induction bs generalizing k with
  | nil => cases k <;> cases hp
  | cons b bs ih =>
    cases k with
    | succ k => exact ih hp
    | zero =>
      rw [piecesFrom] at hp
      cases hw : spaceWidth (b :: bs) with
      | zero =>
        rw [hw] at hp
        rcases List.mem_cons.mp hp with rfl | hp
        · exact ⟨b,rfl,asciiSpace_of_spaceWidth hw⟩
        · exact ih hp
      | succ w =>
        rw [hw] at hp
        rcases List.mem_cons.mp hp with rfl | hp
        · cases hspace
        · exact ih hp

theorem mem_splitOnP {α : Type} {q : α → Bool} {xs part : List α} (h : part ∈ xs.splitOnP q) :
    ∀ x ∈ part,x ∈ xs ∧ q x = false := by
  induction xs generalizing part with
  | nil =>
    rw [List.splitOnP_nil,List.mem_singleton] at h
    rw [h]
    simp
  | cons y xs ih =>
    rw [List.splitOnP_cons_eq_if_modifyHead] at h
    split_ifs at h with hy
    · rcases List.mem_cons.mp h with rfl | h
      · simp
      · exact fun x hx => ⟨List.mem_cons_of_mem y (ih h x hx).1,(ih h x hx).2⟩
    · obtain ⟨first,more,hparts⟩ := List.exists_cons_of_ne_nil (List.splitOnP_ne_nil q xs)
      rw [hparts] at h ih
      intro x hx
      rcases List.mem_cons.mp h with rfl | h
      · rcases List.mem_cons.mp hx with rfl | hx
        · exact ⟨List.mem_cons_self,by simpa using hy⟩
        · have hfirst := ih List.mem_cons_self x hx
          exact ⟨List.mem_cons_of_mem y hfirst.1,hfirst.2⟩
      · have hmore := ih (List.mem_cons_of_mem first h) x hx
        exact ⟨List.mem_cons_of_mem y hmore.1,hmore.2⟩

theorem head_intercalate {sep word : Bytes} {words : List Bytes} (h : word ≠ []) :
    (sep.intercalate (word :: words)).head? = word.head? := by
  cases words with
  | nil => simp [List.intercalate]
  | cons next more => rw [List.intercalate_cons_cons,List.append_assoc,List.head?_append_of_ne_nil _ h]

theorem mem_fields {bs word : Bytes} (h : word ∈ fields bs) :
    word ≠ [] ∧ ∀ b ∈ word,asciiSpace b = false := by
  rw [fields,List.mem_filter] at h
  obtain ⟨hmem,hne⟩ := h
  refine ⟨by simpa using hne,fun b hb => ?_⟩
  obtain ⟨part,hpart,rfl⟩ := List.mem_map.mp hmem
  rw [join,List.mem_flatMap] at hb
  obtain ⟨p,hp,hb⟩ := hb
  obtain ⟨hpiece,hspace⟩ := mem_splitOnP hpart p hp
  obtain ⟨c,hc,hcs⟩ := bytes_of_word hpiece hspace
  rw [hc,List.mem_singleton] at hb
  rw [hb]
  exact hcs

theorem trimSpace_head {bs : Bytes} {b : UInt8} (h : (trimSpace bs).head? = some b) :
    asciiSpace b = false := by
  rw [trimSpace] at h
  cases hdrop : (pieces bs).dropWhile Piece.space with
  | nil => simp [hdrop,join,List.rdropWhile] at h
  | cons p ps =>
    have hspace : p.space = false := by
      have hhead := List.head?_dropWhile_not Piece.space (pieces bs)
      rw [hdrop] at hhead
      exact hhead
    have hmem : p ∈ pieces bs :=
      (List.dropWhile_suffix Piece.space).subset (by rw [hdrop]; exact List.mem_cons_self)
    obtain ⟨c,hc,hcs⟩ := bytes_of_word hmem hspace
    have hkeep : ∃ qs, (p :: ps).rdropWhile Piece.space = p :: qs := by
      have hne : (p :: ps).rdropWhile Piece.space ≠ [] := by
        rw [ne_eq,List.rdropWhile_eq_nil_iff]
        intro hall
        rw [hall p List.mem_cons_self] at hspace
        cases hspace
      obtain ⟨q,qs,hqs⟩ := List.exists_cons_of_ne_nil hne
      obtain ⟨tail,htail⟩ := List.rdropWhile_prefix Piece.space (p :: ps)
      rw [hqs] at htail
      exact ⟨qs,by rw [hqs,(List.cons.inj htail).1]⟩
    obtain ⟨qs,hqs⟩ := hkeep
    rw [hdrop,hqs,join,List.flatMap_cons,hc] at h
    cases h
    exact hcs

theorem piecesFrom_drop (k : ℕ) (bs : Bytes) : piecesFrom k bs = pieces (bs.drop k) := by
  induction bs generalizing k with
  | nil => cases k <;> rfl
  | cons b bs ih =>
    cases k with
    | zero => rfl
    | succ k => exact ih k

-- from a piece on, the pieces are those of the bytes left
theorem pieces_suffix {bs : Bytes} {ps qs : List Piece} (h : pieces bs = ps ++ qs) :
    pieces (join qs) = qs := by
  induction ps generalizing bs with
  | nil =>
    rw [List.nil_append] at h
    rw [← h,join_pieces]
  | cons p ps ih =>
    cases bs with
    | nil => cases h
    | cons b bs =>
      rw [pieces,piecesFrom] at h
      cases hw : spaceWidth (b :: bs) with
      | zero =>
        rw [hw] at h
        exact ih (List.cons.inj h).2
      | succ w =>
        rw [hw] at h
        exact ih ((piecesFrom_drop w bs).symm.trans (List.cons.inj h).2)

theorem spaceWidth_of_append {xs ys : Bytes} (h : spaceWidth (xs ++ ys) = 0) : spaceWidth xs = 0 := by
  rcases xs with _ | ⟨a,_ | ⟨b,_ | ⟨c,xs⟩⟩⟩
  · rfl
  · rw [spaceWidth,asciiSpace_of_spaceWidth h]
    rfl
  · have ha := asciiSpace_of_spaceWidth h
    rcases ys with _ | ⟨d,ys⟩
    · rwa [List.append_nil] at h
    · simp only [List.cons_append,List.nil_append,spaceWidth,ha,Bool.false_eq_true,if_false] at h ⊢
      split_ifs at h ⊢ with h2
      rfl
  · exact h

theorem trimSpace_ne_nil {b : UInt8} {bs : Bytes} (h : spaceWidth (b :: bs) = 0) :
    trimSpace (b :: bs) ≠ [] := by
  have hpieces : pieces (b :: bs) = ⟨false,[b]⟩ :: pieces bs := by
    rw [pieces,piecesFrom,h]
    rfl
  have hdrop : (pieces (b :: bs)).dropWhile Piece.space = ⟨false,[b]⟩ :: pieces bs := by
    rw [hpieces]
    rfl
  have hne : (⟨false,[b]⟩ :: pieces bs : List Piece).rdropWhile Piece.space ≠ [] := by
    rw [ne_eq,List.rdropWhile_eq_nil_iff]
    intro hall
    cases hall _ List.mem_cons_self
  obtain ⟨q,qs,hqs⟩ := List.exists_cons_of_ne_nil hne
  obtain ⟨tail,htail⟩ := List.rdropWhile_prefix Piece.space (⟨false,[b]⟩ :: pieces bs)
  rw [hqs] at htail
  rw [trimSpace,hdrop,hqs,(List.cons.inj htail).1,join,List.flatMap_cons]
  simp

-- a trimmed text that is not empty is not blank
theorem trimSpace_trimSpace_ne_nil {bs : Bytes} (h : trimSpace bs ≠ []) :
    trimSpace (trimSpace bs) ≠ [] := by
  obtain ⟨b,t,hbt⟩ := List.exists_cons_of_ne_nil h
  cases hdrop : (pieces bs).dropWhile Piece.space with
  | nil =>
    rw [trimSpace,hdrop] at hbt
    cases hbt
  | cons q qs =>
    have hspace : q.space = false := by
      have hhead := List.head?_dropWhile_not Piece.space (pieces bs)
      rw [hdrop] at hhead
      exact hhead
    have hsplit : pieces bs = (pieces bs).takeWhile Piece.space ++ q :: qs := by
      rw [← hdrop,List.takeWhile_append_dropWhile]
    have hsuffix := pieces_suffix hsplit
    obtain ⟨rest,hrest⟩ : ∃ rest, join (q :: qs) = trimSpace bs ++ rest := by
      obtain ⟨tail,htail⟩ := List.rdropWhile_prefix Piece.space (q :: qs)
      refine ⟨join tail,?_⟩
      have hjoin : join ((q :: qs).rdropWhile Piece.space ++ tail) = join (q :: qs) := by rw [htail]
      rw [trimSpace,hdrop,← hjoin,join,List.flatMap_append]
      rfl
    have hwidth : spaceWidth (join (q :: qs)) = 0 := by
      rw [hrest,hbt,List.cons_append] at hsuffix ⊢
      rw [pieces,piecesFrom] at hsuffix
      cases hw : spaceWidth (b :: (t ++ rest)) with
      | zero => rfl
      | succ w =>
        rw [hw] at hsuffix
        rw [← (List.cons.inj hsuffix).1] at hspace
        cases hspace
    rw [hrest,hbt] at hwidth
    rw [hbt]
    exact trimSpace_ne_nil (spaceWidth_of_append hwidth)

end Words

end Nimburion.ByteText
