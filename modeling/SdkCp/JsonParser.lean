import SdkCp.Json
import Mathlib.Data.List.TakeWhile

/-! The JSON parser decides the grammar: it accepts the texts that stand for a value and
returns that value. -/
namespace SdkCp
namespace Json

theorem skipWs_split (s : List Char) : ∃ w, Ws w ∧ s = w ++ skipWs s :=
  ⟨s.takeWhile isWs,fun _ hc => List.mem_takeWhile_imp hc,List.takeWhile_append_dropWhile.symm⟩

theorem parseUnicode_sound {s r : List Char} {c : Char} (h : parseUnicode s = some (c,r)) :
    ∃ t, s = t ++ r ∧ CharText ('\\':: 'u'::t) c := by
  unfold parseUnicode at h
  split at h
  swap
  · simp at h
  obtain ⟨n,hn,h⟩ := Option.bind_eq_some_iff.mp h
  split at h
  · rename_i hhigh
    split at h
    swap
    · simp at h
    obtain ⟨lo,hlo,h⟩ := Option.bind_eq_some_iff.mp h
    split at h
    swap
    · simp at h
    rename_i hlow
    obtain ⟨rfl,rfl⟩ := Prod.mk.inj (Option.some.inj h)
    exact ⟨[_,_,_,_,'\\','u',_,_,_,_],rfl,.pair hn hhigh hlo hlow⟩
  · rename_i hhigh
    split at h
    · simp at h
    rename_i hlow
    obtain ⟨rfl,rfl⟩ := Prod.mk.inj (Option.some.inj h)
    exact ⟨[_,_,_,_],rfl,.unicode hn hhigh hlow⟩

theorem parseChar_sound {s r : List Char} {c : Char} (h : parseChar s = some (c,r)) :
    ∃ t, s = t ++ r ∧ CharText t c := by
  unfold parseChar at h
  split at h
  · unfold parseEscape at h
    split at h
    · obtain ⟨t,rfl,ht⟩ := parseUnicode_sound h
      exact ⟨_,rfl,ht⟩
    · obtain ⟨c',hc,h⟩ := Option.map_eq_some_iff.mp h
      obtain ⟨rfl,rfl⟩ := Prod.mk.inj h
      exact ⟨['\\',_],rfl,.short hc⟩
    · simp at h
  · rename_i c' s' hescape
    split at h
    · rename_i hc
      obtain ⟨rfl,rfl⟩ := Prod.mk.inj (Option.some.inj h)
      exact ⟨[_],rfl,.unescaped hc.1 hc.2 hescape⟩
    · simp at h
  · simp at h

theorem parseChars_sound {n : ℕ} {s r cs : List Char} (h : parseChars n s = some (cs,r)) :
    ∃ t, s = t ++ '"'::r ∧ CharsText t cs := by
  induction n generalizing s cs with
  | zero => simp [parseChars] at h
  | succ n ih =>
    unfold parseChars at h
    split at h
    · obtain ⟨rfl,rfl⟩ := Prod.mk.inj (Option.some.inj h)
      exact ⟨[],rfl,.nil⟩
    · obtain ⟨⟨c,s'⟩,hc,h⟩ := Option.bind_eq_some_iff.mp h
      obtain ⟨⟨cs',s''⟩,hcs,h⟩ := Option.map_eq_some_iff.mp h
      obtain ⟨rfl,rfl⟩ := Prod.mk.inj h
      obtain ⟨t,rfl,ht⟩ := parseChar_sound hc
      obtain ⟨t',rfl,ht'⟩ := ih hcs
      exact ⟨t ++ t',by rw [List.append_assoc],.cons ht ht'⟩

theorem parseString_sound {n : ℕ} {s r cs : List Char} (h : parseChars n s = some (cs,r)) :
    ∃ t, '"'::s = t ++ r ∧ StringText t cs := by
  obtain ⟨t,rfl,ht⟩ := parseChars_sound h
  exact ⟨_,by rw [List.cons_append,List.append_assoc]; rfl,.quoted ht⟩

theorem parseDigits_sound {s r ds : List Char} (h : parseDigits s = some (ds,r)) :
    s = ds ++ r ∧ Digits ds := by
  unfold parseDigits at h
  split at h
  · simp at h
  · rename_i hne
    obtain ⟨rfl,rfl⟩ := Prod.mk.inj (Option.some.inj h)
    exact ⟨List.takeWhile_append_dropWhile.symm,hne,fun c hc => List.mem_takeWhile_imp hc⟩

theorem parseInt_sound {s r : List Char} {n : ℕ} (h : parseInt s = some (n,r)) :
    ∃ t, s = t ++ r ∧ IntText t n := by
  unfold parseInt at h
  split at h
  · obtain ⟨rfl,rfl⟩ := Prod.mk.inj (Option.some.inj h)
    exact ⟨['0'],rfl,.zero⟩
  · rename_i hzero
    obtain ⟨⟨ds,r'⟩,hds,h⟩ := Option.map_eq_some_iff.mp h
    obtain ⟨rfl,rfl⟩ := Prod.mk.inj h
    obtain ⟨rfl,hd⟩ := parseDigits_sound hds
    obtain ⟨d,ds,rfl⟩ := List.exists_cons_of_ne_nil hd.1
    exact ⟨_,rfl,.pos (fun he => hzero _ (by rw [he]; rfl)) hd⟩

theorem parseFrac_sound {s r : List Char} {q : ℚ} (h : parseFrac s = some (q,r)) :
    ∃ t, s = t ++ r ∧ FracText t q := by
  unfold parseFrac at h
  split at h
  · obtain ⟨⟨ds,r'⟩,hds,h⟩ := Option.map_eq_some_iff.mp h
    obtain ⟨rfl,rfl⟩ := Prod.mk.inj h
    obtain ⟨rfl,hd⟩ := parseDigits_sound hds
    exact ⟨_,rfl,.some hd⟩
  · obtain ⟨rfl,rfl⟩ := Prod.mk.inj (Option.some.inj h)
    exact ⟨[],rfl,.none⟩

theorem parseExp_sound {s r : List Char} {x : ℤ} (h : parseExp s = some (x,r)) :
    ∃ t, s = t ++ r ∧ ExpText t x := by
  unfold parseExp at h
  split at h
  · split at h
    · rename_i he
      unfold parseExpDigits at h
      split at h
      all_goals
        obtain ⟨⟨ds,r'⟩,hds,h⟩ := Option.map_eq_some_iff.mp h
        obtain ⟨rfl,rfl⟩ := Prod.mk.inj h
        obtain ⟨rfl,hd⟩ := parseDigits_sound hds
      · exact ⟨_,rfl,.plus he hd⟩
      · exact ⟨_,rfl,.minus he hd⟩
      · exact ⟨_,rfl,.unsigned he hd⟩
    · obtain ⟨rfl,rfl⟩ := Prod.mk.inj (Option.some.inj h)
      exact ⟨[],rfl,.none⟩
  · obtain ⟨rfl,rfl⟩ := Prod.mk.inj (Option.some.inj h)
    exact ⟨[],rfl,.none⟩

theorem parseUnsigned_sound {s r : List Char} {q : ℚ} (h : parseUnsigned s = some (q,r)) :
    ∃ t, s = t ++ r ∧ UnsignedText t q := by
  obtain ⟨⟨n,s₁⟩,h₁,h⟩ := Option.bind_eq_some_iff.mp h
  obtain ⟨⟨q',s₂⟩,h₂,h⟩ := Option.bind_eq_some_iff.mp h
  obtain ⟨⟨x,s₃⟩,h₃,h⟩ := Option.map_eq_some_iff.mp h
  obtain ⟨rfl,rfl⟩ := Prod.mk.inj h
  obtain ⟨t₁,rfl,ht₁⟩ := parseInt_sound h₁
  obtain ⟨t₂,rfl,ht₂⟩ := parseFrac_sound h₂
  obtain ⟨t₃,rfl,ht₃⟩ := parseExp_sound h₃
  exact ⟨_,by simp only [List.append_assoc],.mk ht₁ ht₂ ht₃⟩

theorem parseNumber_sound {s r : List Char} {q : ℚ} (h : parseNumber s = some (q,r)) :
    ∃ t, s = t ++ r ∧ NumberText t q := by
  unfold parseNumber at h
  split at h
  · obtain ⟨⟨q',r'⟩,hq,h⟩ := Option.map_eq_some_iff.mp h
    obtain ⟨rfl,rfl⟩ := Prod.mk.inj h
    obtain ⟨t,rfl,ht⟩ := parseUnsigned_sound hq
    exact ⟨_,rfl,.neg ht⟩
  · obtain ⟨t,rfl,ht⟩ := parseUnsigned_sound h
    exact ⟨t,rfl,.pos ht⟩

theorem Ws.append {w w' : List Char} (h : Ws w) (h' : Ws w') : Ws (w ++ w') := by
  intro c hc
  rcases List.mem_append.mp hc with hc | hc
  · exact h c hc
  · exact h' c hc

theorem ws_nil : Ws [] := by simp [Ws]

theorem ElementsText.ws {w t : List Char} {js : List Json} (hw : Ws w) (h : ElementsText t js) :
    ElementsText (w ++ t) js := by
  cases h with
  | one h₁ h₂ h₃ =>
    rw [← List.append_assoc]
    exact .one (hw.append h₁) h₂ h₃
  | cons h₁ h₂ h₃ h₄ =>
    rw [← List.append_assoc]
    exact .cons (hw.append h₁) h₂ h₃ h₄

theorem MembersText.ws {w t : List Char} {members : List (List Char × Json)} (hw : Ws w)
    (h : MembersText t members) : MembersText (w ++ t) members := by
  cases h with
  | one h₁ h₂ h₃ h₄ h₅ h₆ =>
    rw [← List.append_assoc]
    exact .one (hw.append h₁) h₂ h₃ h₄ h₅ h₆
  | cons h₁ h₂ h₃ h₄ h₅ h₆ h₇ =>
    rw [← List.append_assoc]
    exact .cons (hw.append h₁) h₂ h₃ h₄ h₅ h₆ h₇

/-- What the three parsers accept with bound `n`. -/
structure Sound (n : ℕ) : Prop where
  value : ∀ s r j, parseValue n s = some (j,r) → ∃ t, s = t ++ r ∧ ValueText t j
  elements : ∀ s r js, parseElements n s = some (js,r) → ∃ t, s = t ++ ']'::r ∧ ElementsText t js
  members : ∀ s r ms, parseMembers n s = some (ms,r) → ∃ t, s = t ++ '}'::r ∧ MembersText t ms

theorem Sound.value_succ {n : ℕ} (ih : Sound n) {s r : List Char} {j : Json}
    (h : parseValue (n+1) s = some (j,r)) : ∃ t, s = t ++ r ∧ ValueText t j := by
  unfold parseValue at h
  split at h
  · obtain ⟨rfl,rfl⟩ := Prod.mk.inj (Option.some.inj h)
    exact ⟨_,rfl,.null⟩
  · obtain ⟨rfl,rfl⟩ := Prod.mk.inj (Option.some.inj h)
    exact ⟨_,rfl,.true⟩
  · obtain ⟨rfl,rfl⟩ := Prod.mk.inj (Option.some.inj h)
    exact ⟨_,rfl,.false⟩
  · obtain ⟨⟨cs,r'⟩,hcs,h⟩ := Option.map_eq_some_iff.mp h
    obtain ⟨rfl,rfl⟩ := Prod.mk.inj h
    obtain ⟨t,ht,hs⟩ := parseString_sound hcs
    exact ⟨t,ht,.string hs⟩
  · rename_i s'
    obtain ⟨w,hw,hs⟩ := skipWs_split s'
    split at h
    · rename_i hclose
      obtain ⟨rfl,rfl⟩ := Prod.mk.inj (Option.some.inj h)
      refine ⟨_,?_,.emptyArray hw⟩
      rw [hs,hclose]
      simp
    · obtain ⟨⟨js,r'⟩,hjs,h⟩ := Option.map_eq_some_iff.mp h
      obtain ⟨rfl,rfl⟩ := Prod.mk.inj h
      obtain ⟨t,ht,hel⟩ := ih.elements _ _ _ hjs
      refine ⟨_,?_,.array (hel.ws hw)⟩
      rw [hs,ht]
      simp
  · rename_i s'
    obtain ⟨w,hw,hs⟩ := skipWs_split s'
    split at h
    · rename_i hclose
      obtain ⟨rfl,rfl⟩ := Prod.mk.inj (Option.some.inj h)
      refine ⟨_,?_,.emptyObject hw⟩
      rw [hs,hclose]
      simp
    · obtain ⟨⟨ms,r'⟩,hms,h⟩ := Option.map_eq_some_iff.mp h
      obtain ⟨rfl,rfl⟩ := Prod.mk.inj h
      obtain ⟨t,ht,hmem⟩ := ih.members _ _ _ hms
      refine ⟨_,?_,.object (hmem.ws hw)⟩
      rw [hs,ht]
      simp
  · obtain ⟨⟨q,r'⟩,hq,h⟩ := Option.map_eq_some_iff.mp h
    obtain ⟨rfl,rfl⟩ := Prod.mk.inj h
    obtain ⟨t,ht,hn⟩ := parseNumber_sound hq
    exact ⟨t,ht,.number hn⟩

theorem Sound.elements_succ {n : ℕ} (ih : Sound n) {s r : List Char} {js : List Json}
    (h : parseElements (n+1) s = some (js,r)) : ∃ t, s = t ++ ']'::r ∧ ElementsText t js := by
  rw [parseElements] at h
  obtain ⟨⟨j,s₁⟩,hj,hrest⟩ := Option.bind_eq_some_iff.mp h
  obtain ⟨t,rfl,ht⟩ := ih.value _ _ _ hj
  obtain ⟨w,hw,hs⟩ := skipWs_split s₁
  dsimp only at hrest
  split at hrest
  · rename_i s₂ hcomma
    obtain ⟨⟨js',r'⟩,hjs,hrest⟩ := Option.map_eq_some_iff.mp hrest
    obtain ⟨rfl,rfl⟩ := Prod.mk.inj hrest
    obtain ⟨w',hw',hs'⟩ := skipWs_split s₂
    obtain ⟨t',ht',hel⟩ := ih.elements _ _ _ hjs
    refine ⟨_,?_,.cons ws_nil ht hw (hel.ws hw')⟩
    rw [hs,hcomma,hs',ht']
    simp
  · rename_i hclose
    obtain ⟨rfl,rfl⟩ := Prod.mk.inj (Option.some.inj hrest)
    refine ⟨_,?_,.one ws_nil ht hw⟩
    rw [hs,hclose]
    simp
  · simp at hrest

theorem Sound.members_succ {n : ℕ} (ih : Sound n) {s r : List Char}
    {ms : List (List Char × Json)} (h : parseMembers (n+1) s = some (ms,r)) :
    ∃ t, s = t ++ '}'::r ∧ MembersText t ms := by
  unfold parseMembers at h
  split at h
  swap
  · simp at h
  obtain ⟨⟨name,s₁⟩,hname,h⟩ := Option.bind_eq_some_iff.mp h
  obtain ⟨k,hk,hstring⟩ := parseString_sound hname
  obtain ⟨w₁,hw₁,hs₁⟩ := skipWs_split s₁
  dsimp only at h
  split at h
  swap
  · simp at h
  rename_i s₂ hcolon
  obtain ⟨w₂,hw₂,hs₂⟩ := skipWs_split s₂
  obtain ⟨⟨j,s₃⟩,hj,h⟩ := Option.bind_eq_some_iff.mp h
  obtain ⟨t,ht,hvalue⟩ := ih.value _ _ _ hj
  obtain ⟨w₃,hw₃,hs₃⟩ := skipWs_split s₃
  dsimp only at h
  split at h
  · rename_i s₄ hcomma
    obtain ⟨⟨ms',r'⟩,hms,h⟩ := Option.map_eq_some_iff.mp h
    obtain ⟨rfl,rfl⟩ := Prod.mk.inj h
    obtain ⟨w₄,hw₄,hs₄⟩ := skipWs_split s₄
    obtain ⟨t',ht',hmem⟩ := ih.members _ _ _ hms
    refine ⟨_,?_,.cons ws_nil hstring hw₁ hw₂ hvalue hw₃ (hmem.ws hw₄)⟩
    rw [hk,hs₁,hcolon,hs₂,ht,hs₃,hcomma,hs₄,ht']
    simp
  · rename_i hclose
    obtain ⟨rfl,rfl⟩ := Prod.mk.inj (Option.some.inj h)
    refine ⟨_,?_,.one ws_nil hstring hw₁ hw₂ hvalue hw₃⟩
    rw [hk,hs₁,hcolon,hs₂,ht,hs₃,hclose]
    simp
  · simp at h

theorem sound (n : ℕ) : Sound n := by
  induction n with
  | zero => constructor <;> intro _ _ _ h <;> simp [parseValue,parseElements,parseMembers] at h
  | succ n ih =>
    exact ⟨fun _ _ _ h => ih.value_succ h,fun _ _ _ h => ih.elements_succ h,
      fun _ _ _ h => ih.members_succ h⟩

/-- The parser accepts only texts of the grammar and returns a value they stand for. -/
theorem parse_sound {s : List Char} {j : Json} (h : parse s = some j) : Text s j := by
  obtain ⟨⟨j',r⟩,hvalue,h⟩ := Option.bind_eq_some_iff.mp h
  dsimp only at h
  split at h
  swap
  · simp at h
  rename_i hend
  obtain rfl := Option.some.inj h
  obtain ⟨t,ht,hval⟩ := (sound _).value _ _ _ hvalue
  obtain ⟨w,hw,hs⟩ := skipWs_split s
  obtain ⟨w',hw',hr⟩ := skipWs_split r
  rw [hend,List.append_nil] at hr
  rw [hs,ht,hr]
  exact .mk hw hval hw'

/-- A number cannot go on with this text. -/
def Stops (r : List Char) : Prop :=
  ∀ c s, r = c::s → c.isDigit = false ∧ c ≠ '.' ∧ c ≠ 'e' ∧ c ≠ 'E'

theorem stops_cons {c : Char} (h : c.isDigit = false ∧ c ≠ '.' ∧ c ≠ 'e' ∧ c ≠ 'E')
    (s : List Char) : Stops (c::s) := by
  rintro c' s' heq
  obtain ⟨rfl,rfl⟩ := List.cons.inj heq
  exact h

theorem stops_of_isWs {c : Char} (h : isWs c = true) :
    c.isDigit = false ∧ c ≠ '.' ∧ c ≠ 'e' ∧ c ≠ 'E' := by
  simp only [isWs,Bool.or_eq_true,decide_eq_true_eq] at h
  rcases h with ((rfl | rfl) | rfl) | rfl <;> decide

theorem Stops.ws {w r : List Char} (hw : Ws w) (h : Stops r) : Stops (w ++ r) := by
  cases w with
  | nil => exact h
  | cons c w => exact stops_cons (stops_of_isWs (hw c (by simp))) _

theorem skipWs_append {w : List Char} (hw : Ws w) (s : List Char) : skipWs (w ++ s) = skipWs s :=
  List.dropWhile_append_of_pos hw

theorem skipWs_cons {c : Char} (h : isWs c = false) (s : List Char) : skipWs (c::s) = c::s := by
  rw [skipWs,List.dropWhile_cons_of_neg (by simp [h])]

theorem skipWs_ws {w : List Char} (hw : Ws w) : skipWs w = [] := by
  have h := skipWs_append hw []
  rwa [List.append_nil] at h

theorem parseChar_complete {t : List Char} {c : Char} (h : CharText t c) (r : List Char) :
    parseChar (t ++ r) = some (c,r) ∧ ∃ c' s, t = c'::s ∧ c' ≠ '"' := by
  cases h with
  | unescaped hspace hquote hback =>
    refine ⟨?_,_,_,rfl,hquote⟩
    simp only [List.cons_append,List.nil_append]
    unfold parseChar
    split
    · rename_i heq
      exact absurd (List.cons.inj heq).1 hback
    · rename_i heq
      obtain ⟨rfl,rfl⟩ := List.cons.inj heq
      exact if_pos ⟨hspace,hquote⟩
    · simp_all
  | @short e c he =>
    refine ⟨?_,_,_,rfl,by decide⟩
    simp only [List.cons_append,List.nil_append,parseChar]
    unfold parseEscape
    split
    · rename_i heq
      rw [(List.cons.inj heq).1] at he
      exact absurd he (by simp [shortEscape])
    · rename_i heq
      obtain ⟨rfl,rfl⟩ := List.cons.inj heq
      rw [he]
      rfl
    · simp_all
  | unicode hn hhigh hlow =>
    refine ⟨?_,_,_,rfl,by decide⟩
    simp only [List.cons_append,List.nil_append,parseChar,parseEscape,parseUnicode,hn,
      Option.bind_some]
    rw [if_neg hhigh,if_neg hlow]
  | pair hhi hhigh hlo hlow =>
    refine ⟨?_,_,_,rfl,by decide⟩
    simp only [List.cons_append,List.nil_append,parseChar,parseEscape,parseUnicode,hhi,hlo,
      Option.bind_some]
    rw [if_pos hhigh,if_pos hlow]

theorem parseChars_complete {t cs : List Char} (h : CharsText t cs) {n : ℕ} (hn : t.length < n)
    (r : List Char) : parseChars n (t ++ '"'::r) = some (cs,r) := by
  induction h generalizing n with
  | nil =>
    obtain ⟨n,rfl⟩ := Nat.exists_eq_succ_of_ne_zero (by omega : n ≠ 0)
    rfl
  | @cons t ts c cs hc _ ih =>
    obtain ⟨n,rfl⟩ := Nat.exists_eq_succ_of_ne_zero (by omega : n ≠ 0)
    obtain ⟨hchar,c',s,rfl,hquote⟩ := parseChar_complete hc (ts ++ '"'::r)
    simp only [List.length_append,List.length_cons] at hn
    have hrest := ih (n:=n) (by omega)
    rw [List.append_assoc]
    simp only [List.cons_append] at hchar ⊢
    unfold parseChars
    split
    · rename_i heq
      exact absurd (List.cons.inj heq).1 hquote
    · simp only [hchar,Option.bind_some,hrest,Option.map_some]

theorem parseString_complete {t cs : List Char} (h : StringText t cs) (r : List Char) :
    ∃ s, t ++ r = '"'::s ∧ parseChars (s.length+1) s = some (cs,r) := by
  obtain ⟨ht⟩ := h
  rename_i t
  refine ⟨t ++ '"'::r,by simp,parseChars_complete ht ?_ r⟩
  rw [List.length_append]
  omega

theorem parseDigits_complete {ds r : List Char} (h : Digits ds)
    (hr : ∀ c s, r = c::s → c.isDigit = false) : parseDigits (ds ++ r) = some (ds,r) := by
  have hstop : r.takeWhile Char.isDigit = [] ∧ r.dropWhile Char.isDigit = r := by
    cases r with
    | nil => exact ⟨rfl,rfl⟩
    | cons c s =>
      have hc := hr c s rfl
      exact ⟨List.takeWhile_cons_of_neg (by simp [hc]),List.dropWhile_cons_of_neg (by simp [hc])⟩
  rw [parseDigits,List.takeWhile_append_of_pos h.2,List.dropWhile_append_of_pos h.2,hstop.1,hstop.2,
    List.append_nil,if_neg h.1]

theorem parseInt_complete {t r : List Char} {n : ℕ} (h : IntText t n)
    (hr : ∀ c s, r = c::s → c.isDigit = false) : parseInt (t ++ r) = some (n,r) := by
  cases h with
  | zero => rfl
  | @pos d ds hd hds =>
    have hdigits := parseDigits_complete hds hr
    simp only [List.cons_append] at hdigits ⊢
    unfold parseInt
    split
    · rename_i heq
      exact absurd (List.cons.inj heq).1 hd
    · rw [hdigits,Option.map_some]

theorem parseFrac_complete {t r : List Char} {q : ℚ} (h : FracText t q)
    (hr : ∀ c s, r = c::s → c.isDigit = false ∧ c ≠ '.') : parseFrac (t ++ r) = some (q,r) := by
  cases h with
  | none =>
    simp only [List.nil_append]
    unfold parseFrac
    split
    · exact absurd rfl (hr _ _ rfl).2
    · rfl
  | some hds =>
    simp only [List.cons_append,parseFrac]
    rw [parseDigits_complete hds fun c s hc => (hr c s hc).1,Option.map_some]

theorem parseExpDigits_unsigned {ds : List Char} (h : Digits ds) (r : List Char) :
    parseExpDigits (ds ++ r) = (parseDigits (ds ++ r)).map fun (ds,s) => (digitsVal ds,s) := by
  obtain ⟨d,ds',rfl⟩ := List.exists_cons_of_ne_nil h.1
  have hd := h.2 d (by simp)
  simp only [List.cons_append]
  unfold parseExpDigits
  split
  · rename_i heq
    rw [(List.cons.inj heq).1] at hd
    exact absurd hd (by decide)
  · rename_i heq
    rw [(List.cons.inj heq).1] at hd
    exact absurd hd (by decide)
  · rfl

theorem parseExp_complete {t r : List Char} {x : ℤ} (h : ExpText t x) (hr : Stops r) :
    parseExp (t ++ r) = some (x,r) := by
  have hdigit : ∀ c s, r = c::s → c.isDigit = false := fun c s hc => (hr c s hc).1
  cases h with
  | none =>
    cases r with
    | nil => rfl
    | cons c s =>
      obtain ⟨-,-,h₁,h₂⟩ := hr c s rfl
      simp [parseExp,h₁,h₂]
  | unsigned he hds =>
    simp only [List.cons_append,parseExp]
    rw [if_pos he,parseExpDigits_unsigned hds,parseDigits_complete hds hdigit,Option.map_some]
  | plus he hds =>
    simp only [List.cons_append,parseExp,parseExpDigits]
    rw [if_pos he,parseDigits_complete hds hdigit,Option.map_some]
  | minus he hds =>
    simp only [List.cons_append,parseExp,parseExpDigits]
    rw [if_pos he,parseDigits_complete hds hdigit,Option.map_some]

theorem parseUnsigned_complete {t r : List Char} {q : ℚ} (h : UnsignedText t q) (hr : Stops r) :
    parseUnsigned (t ++ r) = some (q,r) := by
  obtain ⟨hint,hfrac,hexp⟩ := h
  rename_i t t' t'' n q x
  have hexp' : ∀ c s, t'' ++ r = c::s → c.isDigit = false ∧ c ≠ '.' := by
    intro c s heq
    cases hexp with
    | none => exact ⟨(hr c s heq).1,(hr c s heq).2.1⟩
    | unsigned he _ | plus he _ | minus he _ =>
      rw [← (List.cons.inj heq).1]
      rcases he with rfl | rfl <;> decide
  have hfrac' : ∀ c s, t' ++ (t'' ++ r) = c::s → c.isDigit = false := by
    intro c s heq
    cases hfrac with
    | none => exact (hexp' c s heq).1
    | some _ =>
      rw [← (List.cons.inj heq).1]
      decide
  simp only [List.append_assoc,parseUnsigned,parseInt_complete hint hfrac',Option.bind_some,
    parseFrac_complete hfrac hexp',parseExp_complete hexp hr,Option.map_some]

theorem UnsignedText.head {t : List Char} {q : ℚ} (h : UnsignedText t q) :
    ∃ c s, t = c::s ∧ c.isDigit = true := by
  obtain ⟨hint,-,-⟩ := h
  cases hint with
  | zero => exact ⟨_,_,rfl,by decide⟩
  | pos _ hds => exact ⟨_,_,rfl,hds.2 _ (by simp)⟩

theorem parseNumber_complete {t r : List Char} {q : ℚ} (h : NumberText t q) (hr : Stops r) :
    parseNumber (t ++ r) = some (q,r) := by
  cases h with
  | neg h => simp only [List.cons_append,parseNumber,parseUnsigned_complete h hr,Option.map_some]
  | pos h =>
    have hun := parseUnsigned_complete h hr
    obtain ⟨c,s,rfl,hc⟩ := h.head
    simp only [List.cons_append] at hun ⊢
    unfold parseNumber
    split
    · rename_i heq
      rw [(List.cons.inj heq).1] at hc
      exact absurd hc (by decide)
    · exact hun

theorem NumberText.head {t : List Char} {q : ℚ} (h : NumberText t q) :
    ∃ c s, t = c::s ∧ (c.isDigit = true ∨ c = '-') := by
  cases h with
  | neg h => exact ⟨_,_,rfl,.inr rfl⟩
  | pos h =>
    obtain ⟨c,s,hs,hc⟩ := h.head
    exact ⟨c,s,hs,.inl hc⟩

/-- A value does not start like whitespace or like the end of an array or object. -/
theorem ValueText.head {t : List Char} {j : Json} (h : ValueText t j) :
    ∃ c s, t = c::s ∧ isWs c = Bool.false ∧ c ≠ ']' ∧ c ≠ '}' := by
  cases h with
  | number h =>
    obtain ⟨c,s,hs,hc⟩ := h.head
    refine ⟨c,s,hs,?_,?_,?_⟩
    · refine Bool.eq_false_iff.mpr fun hws => ?_
      simp only [isWs,Bool.or_eq_true,decide_eq_true_eq] at hws
      rcases hws with ((rfl | rfl) | rfl) | rfl <;> exact absurd hc (by decide)
    · rintro rfl
      exact absurd hc (by decide)
    · rintro rfl
      exact absurd hc (by decide)
  | string h =>
    cases h
    exact ⟨_,_,rfl,by decide,by decide,by decide⟩
  | _ => exact ⟨_,_,rfl,by decide,by decide,by decide⟩

theorem skipWs_value {t : List Char} {j : Json} (h : ValueText t j) (r : List Char) :
    skipWs (t ++ r) = t ++ r := by
  obtain ⟨c,s,rfl,hc,-⟩ := h.head
  exact skipWs_cons hc _

theorem ElementsText.skipWs {t : List Char} {js : List Json} (h : ElementsText t js)
    (r : List Char) : ∃ c s, Json.skipWs (t ++ r) = c::s ∧ c ≠ ']' := by
  have hvalue : ∀ {w t r : List Char} {j : Json}, Ws w → ValueText t j →
      ∃ c s, Json.skipWs (w ++ (t ++ r)) = c::s ∧ c ≠ ']' := by
    intro w t r j hw ht
    rw [skipWs_append hw,skipWs_value ht]
    obtain ⟨c,s,rfl,-,hc,-⟩ := ht.head
    exact ⟨_,_,rfl,hc⟩
  cases h with
  | one hw ht _ | cons hw ht _ _ =>
    simp only [List.append_assoc]
    exact hvalue hw ht

theorem MembersText.skipWs {t : List Char} {ms : List (List Char × Json)} (h : MembersText t ms)
    (r : List Char) : ∃ s, Json.skipWs (t ++ r) = '"'::s := by
  have hname : ∀ {w k r name : List Char}, Ws w → StringText k name →
      ∃ s, Json.skipWs (w ++ (k ++ r)) = '"'::s := by
    intro w k r name hw hk
    obtain ⟨s,hs,-⟩ := parseString_complete hk r
    rw [skipWs_append hw,hs]
    exact ⟨s,skipWs_cons (by decide) _⟩
  cases h with
  | one hw hk _ _ _ _ | cons hw hk _ _ _ _ _ =>
    simp only [List.append_assoc]
    exact hname hw hk

/-- What the three parsers return on texts shorter than `n`. -/
structure Complete (n : ℕ) : Prop where
  value : ∀ t r j, ValueText t j → t.length < n → Stops r → parseValue n (t ++ r) = some (j,r)
  elements : ∀ t r js, ElementsText t js → t.length+1 < n →
    parseElements n (Json.skipWs (t ++ ']'::r)) = some (js,r)
  members : ∀ t r ms, MembersText t ms → t.length+1 < n →
    parseMembers n (Json.skipWs (t ++ '}'::r)) = some (ms,r)

theorem Complete.value_succ {n : ℕ} (ih : Complete n) {t r : List Char} {j : Json}
    (h : ValueText t j) (hn : t.length < n+1) (hr : Stops r) :
    parseValue (n+1) (t ++ r) = some (j,r) := by
  cases h with
  | null => rfl
  | true => rfl
  | false => rfl
  | number h =>
    have hnum := parseNumber_complete h hr
    obtain ⟨c,s,rfl,hc⟩ := h.head
    simp only [List.cons_append] at hnum ⊢
    unfold parseValue
    split
    case h_7 => rw [hnum,Option.map_some]
    all_goals
      rename_i heq
      rw [(List.cons.inj heq).1] at hc
      exact absurd hc (by decide)
  | string h =>
    obtain ⟨s,hs,hchars⟩ := parseString_complete h r
    rw [hs]
    simp only [parseValue,hchars,Option.map_some]
  | @emptyArray w hw =>
    have hskip : skipWs (w ++ ']'::r) = ']'::r := by rw [skipWs_append hw,skipWs_cons (by decide)]
    simp only [List.cons_append,List.append_assoc,List.nil_append,parseValue,hskip]
  | @array t js h =>
    simp only [List.length_cons,List.length_append,List.length_nil] at hn
    have hel := ih.elements _ r _ h (by omega)
    obtain ⟨c,s,hs,hc⟩ := h.skipWs (']'::r)
    rw [hs] at hel
    simp only [List.cons_append,List.append_assoc,List.nil_append,parseValue,hs]
    split
    · rename_i heq
      exact absurd (List.cons.inj heq).1 hc
    · rw [hel,Option.map_some]
  | @emptyObject w hw =>
    have hskip : skipWs (w ++ '}'::r) = '}'::r := by rw [skipWs_append hw,skipWs_cons (by decide)]
    simp only [List.cons_append,List.append_assoc,List.nil_append,parseValue,hskip]
  | @object t ms h =>
    simp only [List.length_cons,List.length_append,List.length_nil] at hn
    have hmem := ih.members _ r _ h (by omega)
    obtain ⟨s,hs⟩ := h.skipWs ('}'::r)
    rw [hs] at hmem
    simp only [List.cons_append,List.append_assoc,List.nil_append,parseValue,hs]
    split
    · rename_i heq
      exact absurd (List.cons.inj heq).1 (by decide)
    · rw [hmem,Option.map_some]

theorem Complete.elements_succ {n : ℕ} (ih : Complete n) {t r : List Char} {js : List Json}
    (h : ElementsText t js) (hn : t.length+1 < n+1) :
    parseElements (n+1) (skipWs (t ++ ']'::r)) = some (js,r) := by
  cases h with
  | @one w t w' j hw ht hw' =>
    simp only [List.length_append] at hn
    have hclose : skipWs (w' ++ ']'::r) = ']'::r := by
      rw [skipWs_append hw',skipWs_cons (by decide)]
    have hvalue := ih.value t (w' ++ ']'::r) j ht (by omega)
      (Stops.ws hw' (stops_cons (by decide) r))
    rw [List.append_assoc,skipWs_append hw,List.append_assoc,skipWs_value ht]
    simp only [parseElements,hvalue,Option.bind_some,hclose]
  | @cons w t w' ts j js hw ht hw' hts =>
    simp only [List.length_append,List.length_cons] at hn
    have hcomma : skipWs (w' ++ ','::(ts ++ ']'::r)) = ','::(ts ++ ']'::r) := by
      rw [skipWs_append hw',skipWs_cons (by decide)]
    have hvalue := ih.value t (w' ++ ','::(ts ++ ']'::r)) j ht (by omega)
      (Stops.ws hw' (stops_cons (by decide) _))
    rw [List.append_assoc,skipWs_append hw,List.append_assoc,skipWs_value ht]
    simp only [List.append_assoc,List.cons_append,parseElements,hvalue,Option.bind_some,hcomma,
      ih.elements ts r js hts (by omega),Option.map_some]

theorem Complete.members_succ {n : ℕ} (ih : Complete n) {t r : List Char}
    {ms : List (List Char × Json)} (h : MembersText t ms) (hn : t.length+1 < n+1) :
    parseMembers (n+1) (skipWs (t ++ '}'::r)) = some (ms,r) := by
  have hcolon : ∀ {w w' t s : List Char} {j : Json}, Ws w → Ws w' → ValueText t j →
      skipWs (w ++ ':'::(w' ++ (t ++ s))) = ':'::(w' ++ (t ++ s)) ∧
      skipWs (w' ++ (t ++ s)) = t ++ s := by
    intro w w' t s j hw hw' ht
    exact ⟨by rw [skipWs_append hw,skipWs_cons (by decide)],by rw [skipWs_append hw',skipWs_value ht]⟩
  cases h with
  | @one w k w₁ w₂ t w' name j hw hk hw₁ hw₂ ht hw' =>
    simp only [List.length_append,List.length_cons] at hn
    obtain ⟨h₁,h₂⟩ := hcolon (s:=w' ++ '}'::r) hw₁ hw₂ ht
    have hclose : skipWs (w' ++ '}'::r) = '}'::r := by
      rw [skipWs_append hw',skipWs_cons (by decide)]
    have hvalue := ih.value t (w' ++ '}'::r) j ht (by omega)
      (Stops.ws hw' (stops_cons (by decide) r))
    obtain ⟨s,hs,hchars⟩ := parseString_complete hk (w₁ ++ ':'::(w₂ ++ (t ++ (w' ++ '}'::r))))
    simp only [List.append_assoc,List.cons_append]
    rw [skipWs_append hw,hs,skipWs_cons (by decide)]
    simp only [parseMembers,hchars,Option.bind_some,h₁,h₂,hvalue,hclose]
  | @cons w k w₁ w₂ t w' ts name j ms hw hk hw₁ hw₂ ht hw' hts =>
    simp only [List.length_append,List.length_cons] at hn
    obtain ⟨h₁,h₂⟩ := hcolon (s:=w' ++ ','::(ts ++ '}'::r)) hw₁ hw₂ ht
    have hcomma : skipWs (w' ++ ','::(ts ++ '}'::r)) = ','::(ts ++ '}'::r) := by
      rw [skipWs_append hw',skipWs_cons (by decide)]
    have hvalue := ih.value t (w' ++ ','::(ts ++ '}'::r)) j ht (by omega)
      (Stops.ws hw' (stops_cons (by decide) _))
    obtain ⟨s,hs,hchars⟩ :=
      parseString_complete hk (w₁ ++ ':'::(w₂ ++ (t ++ (w' ++ ','::(ts ++ '}'::r)))))
    simp only [List.append_assoc,List.cons_append]
    rw [skipWs_append hw,hs,skipWs_cons (by decide)]
    simp only [parseMembers,hchars,Option.bind_some,h₁,h₂,hvalue,hcomma,
      ih.members ts r ms hts (by omega),Option.map_some]

theorem complete (n : ℕ) : Complete n := by
  induction n with
  | zero => exact ⟨fun _ _ _ _ h => by omega,fun _ _ _ _ h => by omega,fun _ _ _ _ h => by omega⟩
  | succ n ih =>
    exact ⟨fun _ _ _ h hn hr => ih.value_succ h hn hr,fun _ _ _ h hn => ih.elements_succ h hn,
      fun _ _ _ h hn => ih.members_succ h hn⟩

/-- The parser decides the grammar; in particular a text stands for one value. -/
theorem parse_iff {s : List Char} {j : Json} : parse s = some j ↔ Text s j := by
  refine ⟨parse_sound,fun h => ?_⟩
  obtain ⟨hw,ht,hw'⟩ := h
  rename_i w t w'
  have hstops : Stops w' := by
    have h := Stops.ws (r:=[]) hw' (fun c s h => by simp at h)
    rwa [List.append_nil] at h
  have hvalue := (complete ((w ++ (t ++ w')).length+1)).value t w' j ht
    (by simp only [List.length_append]; omega) hstops
  rw [parse,skipWs_append hw,skipWs_value ht,hvalue,Option.bind_some]
  exact if_pos (skipWs_ws hw')

end Json
end SdkCp
