import PluginWorkshop.Json.Reader
import PluginWorkshop.Json.Printer
import Mathlib.Data.List.TakeWhile

namespace PluginWorkshop.Json

open Text

/-! ## Text that a reader takes -/

/-- No number goes on here. -/
def Ends (rest : List Char) : Prop :=
  ∀ c, rest.head? = some c → isDigit c = false ∧ c ≠ '.' ∧ c ≠ 'e' ∧ c ≠ 'E'

/-- The reader takes exactly this text, whatever ends it. -/
def Takes (read : Reader α) (text : List Char) (a : α) : Prop :=
  ∀ rest, Ends rest → read (text ++ rest) = .ok (a, rest)

/-- What the reader takes from a text does not depend on what comes after it. -/
def IsLocal (read : Reader α) : Prop :=
  ∀ ⦃s a rest⦄, read s = .ok (a, rest) → ∃ text, s = text ++ rest ∧ Takes read text a

theorem Takes.ends_nil {read : Reader α} {text : List Char} {a : α} (h : Takes read text a) :
    read text = .ok (a, []) := by
  simpa using h [] (by simp [Ends])

theorem of_map_ok {ε α β : Type} {x : Except ε α} {f : α → β} {b : β} (h : x.map f = .ok b) :
    ∃ a, x = .ok a ∧ f a = b := by
  cases x with
  | error e => cases h
  | ok a => exact ⟨a, rfl, Except.ok.inj h⟩

theorem consRead_ok {c : Char} {read : Except Flaw (List Char × List Char)} {t rest : List Char}
    (h : consRead c read = .ok (t, rest)) : ∃ t', read = .ok (t', rest) ∧ t = c :: t' := by
  obtain ⟨⟨t', after⟩, hread, hp⟩ := of_map_ok h
  obtain ⟨rfl, rfl⟩ := Prod.mk.inj hp
  exact ⟨t', hread, rfl⟩

@[simp] theorem consRead_eq (c : Char) (t rest : List Char) :
    consRead c (.ok (t, rest)) = .ok (c :: t, rest) := rfl

attribute [local simp] stringBody

theorem hexDigit?_hexDigit : ∀ n < 16, hexDigit? (hexDigit n) = some n := by decide

theorem stringBody_unit {a b c d : Char} {n : Nat} (h : hexNumber? a b c d = some n)
    (ht : isTrailingSurrogate n = false) (hl : isLeadingSurrogate n = false) (rest : List Char) :
    stringBody ('\\' :: 'u' :: a :: b :: c :: d :: rest) =
      consRead (Char.ofNat n) (stringBody rest) := by
  simp [h, ht, hl]

theorem stringBody_pair {a b c d e f g k : Char} {n m : Nat} (hn : hexNumber? a b c d = some n)
    (ht : isTrailingSurrogate n = false) (hl : isLeadingSurrogate n = true)
    (hm : hexNumber? e f g k = some m) (hmt : isTrailingSurrogate m = true) (rest : List Char) :
    stringBody ('\\' :: 'u' :: a :: b :: c :: d :: '\\' :: 'u' :: e :: f :: g :: k :: rest) =
      consRead (pairedChar n m) (stringBody rest) := by
  simp [hn, ht, hl, hm, hmt]

theorem stringBody_short {e c : Char} (h : shortEscape? e = some c) (rest : List Char) :
    stringBody ('\\' :: e :: rest) = consRead c (stringBody rest) := by
  have hu : e ≠ 'u' := by rintro rfl; simp [shortEscape?] at h
  rw [stringBody]
  · rw [h]
  all_goals simp_all

theorem stringBody_plain {c : Char} (hq : c ≠ '"') (hb : c ≠ '\\') (hc : 0x20 ≤ c.toNat)
    (rest : List Char) : stringBody (c :: rest) = consRead c (stringBody rest) := by
  rw [stringBody]
  · exact if_neg (by omega)
  all_goals simp_all

theorem stringBody_escapeChar (c : Char) (rest : List Char) :
    stringBody (escapeChar c ++ rest) = consRead c (stringBody rest) := by
  unfold escapeChar
  split_ifs with hq hb hc h8 h9 h10 h12 h13
  · subst hq; exact stringBody_short rfl rest
  · subst hb; exact stringBody_short rfl rest
  · subst h8; exact stringBody_short rfl rest
  · subst h9; exact stringBody_short rfl rest
  · subst h10; exact stringBody_short rfl rest
  · subst h12; exact stringBody_short rfl rest
  · subst h13; exact stringBody_short rfl rest
  · have hn : hexNumber? '0' '0' (hexDigit (c.toNat / 16)) (hexDigit (c.toNat % 16)) =
        some c.toNat := by
      have h0 : hexDigit? '0' = some 0 := rfl
      simp only [hexNumber?, h0, hexDigit?_hexDigit (c.toNat / 16) (by omega),
        hexDigit?_hexDigit (c.toNat % 16) (by omega), Option.pure_def, Option.bind_eq_bind,
        Option.bind_some, Option.some.injEq]
      omega
    have := stringBody_unit hn (by simp [isTrailingSurrogate]; omega)
      (by simp [isLeadingSurrogate]; omega) rest
    simpa using this
  · exact stringBody_plain hq hb (by omega) rest

theorem stringBody_escape (s rest : List Char) :
    stringBody (escape s ++ '"' :: rest) = .ok (s, rest) := by
  induction s with
  | nil => simp [escape]
  | cons c s ih =>
    have : escape (c :: s) = escapeChar c ++ escape s := by simp [escape]
    rw [this, List.append_assoc, stringBody_escapeChar, ih, consRead_eq]

/-- One more character in front of a text of which the string reader takes a part. -/
theorem exists_takes_of_consRead (front : List Char) {s t rest : List Char} {c : Char}
    (hfront : ∀ r, stringBody (front ++ r) = consRead c (stringBody r))
    (ih : ∀ ⦃t'⦄, stringBody s = .ok (t', rest) →
      ∃ text, s = text ++ rest ∧ Takes stringBody text t')
    (h : consRead c (stringBody s) = .ok (t, rest)) :
    ∃ text, front ++ s = text ++ rest ∧ Takes stringBody text t := by
  obtain ⟨t', h', rfl⟩ := consRead_ok h
  obtain ⟨text, rfl, htext⟩ := ih h'
  refine ⟨front ++ text, by simp, fun r hr => ?_⟩
  rw [List.append_assoc, hfront, htext r hr, consRead_eq]

theorem isLocal_stringBody : IsLocal stringBody := by
  intro s t rest h
  fun_induction stringBody s generalizing t with
  | case2 r =>
    obtain ⟨rfl, rfl⟩ : [] = t ∧ r = rest := by simpa using h
    exact ⟨['"'], rfl, fun r _ => by simp⟩
  | case7 a b c d n hn hnt hnl e f g k after m hm hmt ih =>
    exact exists_takes_of_consRead ['\\', 'u', a, b, c, d, '\\', 'u', e, f, g, k]
      (stringBody_pair hn (by simpa using hnt) hnl hm hmt) ih h
  | case14 a b c d r n hn hnt hnl ih =>
    exact exists_takes_of_consRead ['\\', 'u', a, b, c, d]
      (stringBody_unit hn (by simpa using hnt) (by simpa using hnl)) ih h
  | case16 e r _ _ c hc ih =>
    exact exists_takes_of_consRead ['\\', e] (stringBody_short hc) ih h
  | case19 c r hq _ _ _ he hc ih =>
    refine exists_takes_of_consRead [c] (stringBody_plain hq ?_ (by omega)) ih h
    rintro rfl
    cases r <;> simp_all
  | _ => simp at h

theorem ends_cons {c : Char} {rest : List Char} :
    Ends (c :: rest) ↔ isDigit c = false ∧ c ≠ '.' ∧ c ≠ 'e' ∧ c ≠ 'E' := by
  simp [Ends]

/-! ## Numbers -/

/-- Digits, of which there is one at least. -/
def IsDigits (s : List Char) : Prop := s ≠ [] ∧ ∀ c ∈ s, isDigit c = true

/-- No digit comes next. -/
def NoDigit (rest : List Char) : Prop := ∀ c, rest.head? = some c → isDigit c = false

theorem Ends.noDigit {rest : List Char} (h : Ends rest) : NoDigit rest := fun c hc => (h c hc).1

theorem noDigit_cons {c : Char} {rest : List Char} : NoDigit (c :: rest) ↔ isDigit c = false := by
  simp [NoDigit]

theorem someDigits_append {ds rest : List Char} (hds : IsDigits ds) (hrest : NoDigit rest)
    (eof other : Flaw) : someDigits eof other (ds ++ rest) = .ok (ds, rest) := by
  have htake : (ds ++ rest).takeWhile isDigit = ds := by
    rw [List.takeWhile_append_of_pos hds.2]
    cases rest with
    | nil => simp
    | cons c rest => simp [hrest c rfl]
  have hdrop : (ds ++ rest).dropWhile isDigit = rest := by
    rw [List.dropWhile_append_of_pos hds.2]
    cases rest with
    | nil => rfl
    | cons c rest => simp [hrest c rfl]
  rw [someDigits, htake, hdrop]
  cases ds with
  | nil => exact absurd rfl hds.1
  | cons d ds => rfl

theorem of_someDigits {eof other : Flaw} {s ds rest : List Char}
    (h : someDigits eof other s = .ok (ds, rest)) :
    IsDigits ds ∧ s = ds ++ rest ∧ NoDigit rest := by
  rw [someDigits] at h
  split at h
  · simp at h
  · next hne =>
    obtain ⟨rfl, rfl⟩ : s.takeWhile isDigit = ds ∧ s.dropWhile isDigit = rest := by simpa using h
    refine ⟨⟨hne, fun c hc => List.mem_takeWhile_imp hc⟩, List.takeWhile_append_dropWhile.symm,
      fun c hc => ?_⟩
    have := List.head?_dropWhile_not isDigit s
    simpa [hc] using this

/-- An integer part: a zero, or digits that start with no zero. -/
def IsInteger (s : List Char) : Prop := s = ['0'] ∨ IsDigits s ∧ s.head? ≠ some '0'

/-- A fraction, or nothing. -/
def IsFraction (s : List Char) : Prop := s = [] ∨ ∃ ds, IsDigits ds ∧ s = '.' :: ds

/-- An exponent, or nothing, as it stands in a text and as it is kept. -/
inductive IsExponent : List Char → List Char → Prop
  | none : IsExponent [] []
  | plain {e : Char} {ds : List Char} : e = 'e' ∨ e = 'E' → IsDigits ds →
      IsExponent (e :: ds) ('e' :: '+' :: ds)
  | signed {e sign : Char} {ds : List Char} : e = 'e' ∨ e = 'E' → sign = '+' ∨ sign = '-' →
      IsDigits ds → IsExponent (e :: sign :: ds) ('e' :: sign :: ds)

theorem IsExponent.kept {raw text : List Char} (h : IsExponent raw text) : IsExponent text text := by
  cases h with
  | none => exact .none
  | plain _ hds => exact .signed (Or.inl rfl) (Or.inl rfl) hds
  | signed _ hsign hds => exact .signed (Or.inl rfl) hsign hds

theorem integerPart_append {s rest : List Char} (hs : IsInteger s) (hrest : NoDigit rest) :
    integerPart (s ++ rest) = .ok (s, rest) := by
  rcases hs with rfl | ⟨hs, hzero⟩
  · cases rest with
    | nil => rfl
    | cons c rest => simp [integerPart, hrest c rfl]
  · cases s with
    | nil => exact absurd rfl hs.1
    | cons c s =>
      rw [List.cons_append, integerPart]
      · exact someDigits_append hs hrest _ _
      · rintro r hr
        simp_all

theorem of_integerPart {s t rest : List Char} (h : integerPart s = .ok (t, rest)) :
    IsInteger t ∧ s = t ++ rest ∧ NoDigit rest := by
  unfold integerPart at h
  split at h
  · next r =>
    split at h
    · simp at h
    · next hr =>
      obtain ⟨rfl, rfl⟩ : ['0'] = t ∧ r = rest := by simpa using h
      refine ⟨Or.inl rfl, rfl, fun c hc => ?_⟩
      simpa [hc] using hr
  · next hzero =>
    obtain ⟨hds, rfl, hrest⟩ := of_someDigits h
    refine ⟨Or.inr ⟨hds, fun hhead => ?_⟩, rfl, hrest⟩
    cases t with
    | nil => simp at hhead
    | cons c t => exact hzero (t ++ rest) (by simpa using hhead)

theorem fractionPart_append {s rest : List Char} (hs : IsFraction s) (hrest : NoDigit rest)
    (hdot : rest.head? ≠ some '.') : fractionPart (s ++ rest) = .ok (s, rest) := by
  rcases hs with rfl | ⟨ds, hds, rfl⟩
  · rw [List.nil_append, fractionPart]
    rintro r rfl
    exact hdot rfl
  · simp [fractionPart, someDigits_append hds hrest, bind, Except.bind, pure, Except.pure]

theorem of_fractionPart {s t rest : List Char} (h : fractionPart s = .ok (t, rest)) :
    IsFraction t ∧ s = t ++ rest := by
  unfold fractionPart at h
  split at h
  · next r =>
    cases hr : someDigits (flawAfter .eofInValue r) (flawAfter .invalidNumber r) r with
    | error e => simp [hr, bind, Except.bind] at h
    | ok p =>
      obtain ⟨ds, r'⟩ := p
      obtain ⟨rfl, rfl⟩ : '.' :: ds = t ∧ r' = rest := by
        simpa [hr, bind, Except.bind, pure, Except.pure] using h
      obtain ⟨hds, rfl, -⟩ := of_someDigits hr
      exact ⟨Or.inr ⟨ds, hds, rfl⟩, rfl⟩
  · obtain ⟨rfl, rfl⟩ : [] = t ∧ s = rest := by simpa using h
    exact ⟨Or.inl rfl, rfl⟩

theorem IsDigits.exists_cons {ds : List Char} (h : IsDigits ds) :
    ∃ d tail, ds = d :: tail ∧ isDigit d = true := by
  cases ds with
  | nil => exact absurd rfl h.1
  | cons d tail => exact ⟨d, tail, rfl, h.2 d (by simp)⟩

/-- An exponent starts with its letter, so no digits of a number before it go on there. -/
theorem IsExponent.noDigit {raw text rest : List Char} (h : IsExponent raw text)
    (hrest : Ends rest) : NoDigit (raw ++ rest) ∧ (raw ++ rest).head? ≠ some '.' := by
  cases h with
  | none => exact ⟨hrest.noDigit, fun hd => (hrest '.' hd).2.1 rfl⟩
  | plain he _ => rcases he with rfl | rfl <;> simp [noDigit_cons, isDigit]
  | signed he _ _ => rcases he with rfl | rfl <;> simp [noDigit_cons, isDigit]

theorem exponentPart_append {raw text rest : List Char} (h : IsExponent raw text)
    (hrest : Ends rest) : exponentPart (raw ++ rest) = .ok (text, rest) := by
  cases h with
  | none =>
    cases rest with
    | nil => rfl
    | cons c rest =>
      obtain ⟨-, -, he, hE⟩ := ends_cons.mp hrest
      simp [exponentPart, he, hE]
  | @plain e ds he hds =>
    obtain ⟨d, tail, rfl, hd⟩ := hds.exists_cons
    have hsign : exponentSign (d :: (tail ++ rest)) = ('+', d :: (tail ++ rest)) := by
      rw [exponentSign] <;> rintro r hr <;> simp_all [isDigit]
    have hdigits := someDigits_append hds hrest.noDigit
    simp only [List.cons_append] at hdigits
    simp [exponentPart, he, hsign, hdigits, bind, Except.bind, pure, Except.pure]
  | @signed e sign ds he hsign hds =>
    rcases hsign with rfl | rfl <;>
      simp [exponentPart, exponentSign, he, someDigits_append hds hrest.noDigit, bind, Except.bind,
        pure, Except.pure]

theorem of_exponentPart {s t rest : List Char} (h : exponentPart s = .ok (t, rest)) :
    ∃ raw, IsExponent raw t ∧ s = raw ++ rest := by
  unfold exponentPart at h
  split at h
  · next e r =>
    split at h
    · next he =>
      cases hr : someDigits (flawAt .eofInValue (exponentSign r).2)
          (flawAfter .invalidNumber (exponentSign r).2) (exponentSign r).2 with
      | error f => simp [hr, bind, Except.bind] at h
      | ok p =>
        obtain ⟨ds, r'⟩ := p
        obtain ⟨rfl, rfl⟩ : 'e' :: (exponentSign r).1 :: ds = t ∧ r' = rest := by
          simpa [hr, bind, Except.bind, pure, Except.pure] using h
        obtain ⟨hds, hr', -⟩ := of_someDigits hr
        clear h hr
        unfold exponentSign at hr' ⊢
        split at hr'
        · exact ⟨_, .signed he (Or.inl rfl) hds, by simpa using hr'⟩
        · exact ⟨_, .signed he (Or.inr rfl) hds, by simpa using hr'⟩
        · exact ⟨_, .plain he hds, by simpa using hr'⟩
    · obtain ⟨rfl, rfl⟩ : [] = t ∧ e :: r = rest := by simpa using h
      exact ⟨[], .none, rfl⟩
  · obtain ⟨rfl, rfl⟩ : [] = t ∧ [] = rest := by simpa using h
    exact ⟨[], .none, rfl⟩

/-- A number without its sign, as it stands in a text and as it is kept. -/
def IsUnsigned (raw text : List Char) : Prop :=
  ∃ integer fraction rawExponent exponent, IsInteger integer ∧ IsFraction fraction ∧
    IsExponent rawExponent exponent ∧ raw = integer ++ fraction ++ rawExponent ∧
    text = integer ++ fraction ++ exponent

theorem IsUnsigned.takes {raw text : List Char} (h : IsUnsigned raw text) :
    Takes unsignedNumber raw text := by
  obtain ⟨i, f, rx, x, hi, hf, hx, rfl, rfl⟩ := h
  intro rest hrest
  obtain ⟨hx1, hx2⟩ := hx.noDigit hrest
  have hf1 : NoDigit (f ++ (rx ++ rest)) := by
    rcases hf with rfl | ⟨ds, -, rfl⟩
    · exact hx1
    · simp [noDigit_cons, isDigit]
  simp [unsignedNumber, integerPart_append hi hf1, fractionPart_append hf hx1 hx2,
    exponentPart_append hx hrest, bind, Except.bind, pure, Except.pure]

theorem of_unsignedNumber {s t rest : List Char} (h : unsignedNumber s = .ok (t, rest)) :
    ∃ raw, IsUnsigned raw t ∧ s = raw ++ rest := by
  simp only [unsignedNumber, bind, Except.bind, pure, Except.pure] at h
  split at h
  · simp at h
  next p hi =>
  split at h
  · simp at h
  next q hf =>
  split at h
  · simp at h
  next r hx =>
  obtain ⟨rfl, rfl⟩ : p.1 ++ q.1 ++ r.1 = t ∧ r.2 = rest := by simpa using h
  obtain ⟨hi, hs, -⟩ := of_integerPart hi
  obtain ⟨hf, hs'⟩ := of_fractionPart hf
  obtain ⟨rx, hx, hs''⟩ := of_exponentPart hx
  exact ⟨_, ⟨_, _, rx, _, hi, hf, hx, rfl, rfl⟩, by simp [hs, hs', hs'']⟩

/-- A number, as it stands in a text and as it is kept. -/
inductive IsNumber : List Char → List Char → Prop
  | plain {raw text : List Char} : IsUnsigned raw text → IsNumber raw text
  | negative {raw text : List Char} : IsUnsigned raw text → IsNumber ('-' :: raw) ('-' :: text)

theorem IsUnsigned.exists_cons {raw text : List Char} (h : IsUnsigned raw text) :
    ∃ d tail, raw = d :: tail ∧ isDigit d = true := by
  obtain ⟨i, f, rx, x, hi, -, -, rfl, -⟩ := h
  rcases hi with rfl | ⟨hi, -⟩
  · exact ⟨'0', f ++ rx, rfl, rfl⟩
  · obtain ⟨d, tail, rfl, hd⟩ := hi.exists_cons
    exact ⟨d, tail ++ f ++ rx, by simp, hd⟩

theorem IsNumber.exists_cons {raw text : List Char} (h : IsNumber raw text) :
    ∃ c tail, raw = c :: tail ∧ (c = '-' ∨ isDigit c = true) := by
  cases h with
  | plain h =>
    obtain ⟨d, tail, hraw, hd⟩ := h.exists_cons
    exact ⟨d, tail, hraw, Or.inr hd⟩
  | @negative raw text h => exact ⟨'-', raw, rfl, Or.inl rfl⟩

/-- A number that is kept is written as it is kept. -/
theorem IsNumber.kept {raw text : List Char} (h : IsNumber raw text) : IsNumber text text := by
  have kept : ∀ {raw text : List Char}, IsUnsigned raw text → IsUnsigned text text := by
    rintro raw text ⟨i, f, rx, x, hi, hf, hx, -, rfl⟩
    exact ⟨i, f, x, x, hi, hf, hx.kept, rfl, rfl⟩
  cases h with
  | plain h => exact .plain (kept h)
  | negative h => exact .negative (kept h)

theorem IsNumber.takes {raw text : List Char} (h : IsNumber raw text) :
    Takes numberText raw text := by
  intro rest hrest
  cases h with
  | plain h =>
    have := h.takes rest hrest
    obtain ⟨d, tail, rfl, hd⟩ := h.exists_cons
    rw [List.cons_append, numberText]
    · exact this
    · rintro r hr
      simp_all [isDigit]
  | negative h => simp [numberText, h.takes rest hrest, bind, Except.bind, pure, Except.pure]

theorem of_numberText {s t rest : List Char} (h : numberText s = .ok (t, rest)) :
    ∃ raw, IsNumber raw t ∧ s = raw ++ rest := by
  unfold numberText at h
  split at h
  · next r =>
    cases hr : unsignedNumber r with
    | error e => simp [hr, bind, Except.bind] at h
    | ok p =>
      obtain ⟨rfl, rfl⟩ : '-' :: p.1 = t ∧ p.2 = rest := by
        simpa [hr, bind, Except.bind, pure, Except.pure] using h
      obtain ⟨raw, hraw, rfl⟩ := of_unsignedNumber hr
      exact ⟨'-' :: raw, .negative hraw, rfl⟩
  · obtain ⟨raw, hraw, rfl⟩ := of_unsignedNumber h
    exact ⟨raw, .plain hraw, rfl⟩

/-! ## Space -/

/-- Spaces only. -/
def IsGap (s : List Char) : Prop := ∀ c ∈ s, isSpace c = true

/-- The text starts with a character that is neither a space nor `close`. -/
def Starts (close : Char) (s : List Char) : Prop :=
  ∃ c tail, s = c :: tail ∧ isSpace c = false ∧ c ≠ close

theorem Starts.ne_space {close : Char} {s : List Char} (h : Starts close s) : Starts ' ' s := by
  obtain ⟨c, tail, rfl, hc, -⟩ := h
  exact ⟨c, tail, rfl, hc, by rintro rfl; simp [isSpace] at hc⟩

theorem isGap_nil : IsGap [] := by simp [IsGap]

theorem IsGap.append {a b : List Char} (ha : IsGap a) (hb : IsGap b) : IsGap (a ++ b) := by
  intro c hc
  rcases List.mem_append.mp hc with hc | hc
  · exact ha c hc
  · exact hb c hc

theorem skipSpace_append {gap : List Char} (h : IsGap gap) (s : List Char) :
    skipSpace (gap ++ s) = skipSpace s :=
  List.dropWhile_append_of_pos h

theorem skipSpace_cons {c : Char} (h : isSpace c = false) (s : List Char) :
    skipSpace (c :: s) = c :: s := by
  simp [skipSpace, h]

theorem exists_gap (s : List Char) : ∃ gap, IsGap gap ∧ s = gap ++ skipSpace s :=
  ⟨s.takeWhile isSpace, fun _ h => List.mem_takeWhile_imp h,
    List.takeWhile_append_dropWhile.symm⟩

theorem isSpace_of_skipSpace {s rest : List Char} {c : Char} (h : skipSpace s = c :: rest) :
    isSpace c = false := by
  have := List.head?_dropWhile_not isSpace s
  rw [skipSpace] at h
  simpa [h] using this

theorem IsGap.ends {gap rest : List Char} (h : IsGap gap) (hrest : Ends rest) :
    Ends (gap ++ rest) := by
  cases gap with
  | nil => exact hrest
  | cons c gap =>
    have hc := h c (by simp)
    simp only [isSpace, Bool.or_eq_true, beq_iff_eq] at hc
    rcases hc with ((rfl | rfl) | rfl) | rfl <;> simp [ends_cons, isDigit]

/-! ## Sequences -/

/-- Items with commas between them, up to and with the closing bracket. -/
inductive ItemsText (bracket : Bracket) (item : Reader α) : List Char → List α → Prop
  | last {text gap : List Char} {a : α} : Takes item text a → IsGap gap →
      ItemsText bracket item (text ++ gap ++ [bracket.close]) [a]
  | more {text gap gap' tail : List Char} {a : α} {as : List α} : Takes item text a →
      IsGap gap → IsGap gap' → Starts bracket.close tail → ItemsText bracket item tail as →
      ItemsText bracket item (text ++ gap ++ ',' :: gap' ++ tail) (a :: as)

/-- What follows the opening bracket of a sequence, up to and with the closing one. -/
inductive SequenceText (bracket : Bracket) (item : Reader α) : List Char → List α → Prop
  | empty {gap : List Char} : IsGap gap → SequenceText bracket item (gap ++ [bracket.close]) []
  | items {gap tail : List Char} {as : List α} : IsGap gap → Starts bracket.close tail →
      ItemsText bracket item tail as → SequenceText bracket item (gap ++ tail) as

/-- A bracket that closes lists or objects. -/
def Bracket.Valid (bracket : Bracket) : Prop := bracket = .list ∨ bracket = .object

namespace Bracket.Valid

variable {bracket : Bracket} (hb : bracket.Valid)
include hb

theorem isSpace_close : isSpace bracket.close = false := by
  rcases hb with rfl | rfl <;> rfl

theorem ends_close (rest : List Char) : Ends (bracket.close :: rest) := by
  rcases hb with rfl | rfl <;> simp [ends_cons, Bracket.list, Bracket.object, isDigit]

theorem close_ne_comma : bracket.close ≠ ',' := by
  rcases hb with rfl | rfl <;> simp [Bracket.list, Bracket.object]

end Bracket.Valid

section

variable {bracket : Bracket} (hb : bracket.Valid) {item : Reader α}
include hb

omit hb in
theorem ItemsText.length_le {text : List Char} {as : List α} (h : ItemsText bracket item text as) :
    as.length ≤ text.length := by
  induction h with
  | last =>
    simp only [List.length_append, List.length_singleton]
    omega
  | more _ _ _ _ _ ih =>
    simp only [List.length_append, List.length_cons]
    omega

theorem ItemsText.reads {text : List Char} {as : List α} (h : ItemsText bracket item text as) :
    ∀ n, as.length ≤ n → ∀ rest, itemsUpTo bracket item n (text ++ rest) = .ok (as, rest) := by
  induction h with
  | @last text gap a ht hgap =>
    intro n hn rest
    obtain ⟨n, rfl⟩ : ∃ k, n = k + 1 := ⟨n - 1, by simp at hn; omega⟩
    have hread := ht _ (hgap.ends (hb.ends_close rest))
    simp only [List.append_assoc, List.singleton_append, itemsUpTo, hread, bind, Except.bind,
      skipSpace_append hgap, skipSpace_cons hb.isSpace_close]
    simp [pure, Except.pure]
  | @more text gap gap' tail a as ht hgap hgap' hstart _ ih =>
    intro n hn rest
    obtain ⟨n, rfl⟩ : ∃ k, n = k + 1 := ⟨n - 1, by simp at hn; omega⟩
    obtain ⟨c, tail, rfl, hc, hne⟩ := hstart
    have hcomma : ∀ s, Ends (',' :: s) := fun s => by simp [ends_cons, isDigit]
    have hread := ht _ (hgap.ends (hcomma (gap' ++ (c :: (tail ++ rest)))))
    have ih := ih n (by simpa using hn) rest
    simp only [List.cons_append] at ih
    simp only [List.append_assoc, List.cons_append, itemsUpTo, hread, bind, Except.bind,
      skipSpace_append hgap, skipSpace_append hgap', skipSpace_cons hc,
      skipSpace_cons (show isSpace ',' = false from rfl)]
    simp [hne, hb.close_ne_comma.symm, ih, pure, Except.pure]

theorem SequenceText.takes {text : List Char} {as : List α}
    (h : SequenceText bracket item text as) : Takes (sequence bracket item) text as := by
  intro rest _
  cases h with
  | empty hgap =>
    simp [sequence, skipSpace_append hgap, skipSpace_cons hb.isSpace_close]
  | items hgap hstart h =>
    obtain ⟨c, tail, rfl, hc, hne⟩ := hstart
    have hlen := h.length_le
    have hread := h.reads hb
    simp only [List.cons_append] at hread
    simp only [sequence, List.append_assoc, List.cons_append, skipSpace_append hgap,
      skipSpace_cons hc, if_neg hne]
    exact hread _ (by simp at hlen ⊢; omega) rest

omit hb in
theorem ItemsText.ne_nil {text : List Char} {as : List α} (h : ItemsText bracket item text as) :
    text ≠ [] := by
  cases h <;> simp

omit hb in
theorem of_itemsUpTo (hitem : IsLocal item) :
    ∀ {n : Nat} {s : List Char} {as : List α} {rest : List Char},
      itemsUpTo bracket item n s = .ok (as, rest) →
      ∃ text, ItemsText bracket item text as ∧ s = text ++ rest
  | 0, s, as, rest, h => by simp [itemsUpTo] at h
  | n + 1, s, as, rest, h => by
    rw [itemsUpTo] at h
    cases hfirst : item s with
    | error e => simp [hfirst, bind, Except.bind] at h
    | ok p =>
    obtain ⟨a, after⟩ := p
    obtain ⟨text, rfl, htext⟩ := hitem hfirst
    obtain ⟨gap, hgap, hafter⟩ := exists_gap after
    simp only [hfirst, bind, Except.bind] at h
    cases hc : skipSpace after with
    | nil => simp [hc] at h
    | cons c r =>
    rw [hc] at hafter h
    dsimp only at h
    split at h
    · next hclose =>
      obtain ⟨rfl, rfl⟩ : [a] = as ∧ r = rest := by simpa [pure, Except.pure] using h
      exact ⟨text ++ gap ++ [bracket.close], .last htext hgap, by simp [hafter, hclose]⟩
    split at h
    · next hcomma =>
      obtain ⟨gap', hgap', hr⟩ := exists_gap r
      cases hd : skipSpace r with
      | nil => simp [hd] at h
      | cons d r' =>
      rw [hd] at hr h
      dsimp only at h
      split at h
      · simp at h
      · next hne =>
        cases hothers : itemsUpTo bracket item n (d :: r') with
        | error e => simp [hothers] at h
        | ok q =>
        obtain ⟨others, r''⟩ := q
        obtain ⟨rfl, rfl⟩ : a :: others = as ∧ r'' = rest := by
          simpa [hothers, pure, Except.pure] using h
        obtain ⟨tail, htail, heq⟩ := of_itemsUpTo hitem hothers
        have hstart : Starts bracket.close tail := by
          cases tail with
          | nil => exact absurd rfl htail.ne_nil
          | cons x tail =>
            obtain ⟨rfl, -⟩ : d = x ∧ r' = tail ++ r'' := by simpa using heq
            exact ⟨d, tail, rfl, isSpace_of_skipSpace hd, hne⟩
        exact ⟨text ++ gap ++ ',' :: gap' ++ tail, .more htext hgap hgap' hstart htail,
          by simp [hafter, hcomma, hr, heq]⟩
    · simp at h

omit hb in
theorem of_sequence (hitem : IsLocal item) {s : List Char} {as : List α} {rest : List Char}
    (h : sequence bracket item s = .ok (as, rest)) :
    ∃ text, SequenceText bracket item text as ∧ s = text ++ rest := by
  obtain ⟨gap, hgap, hs⟩ := exists_gap s
  rw [sequence] at h
  cases hc : skipSpace s with
  | nil => simp [hc] at h
  | cons c r =>
  rw [hc] at hs h
  dsimp only at h
  split at h
  · next hclose =>
    obtain ⟨rfl, rfl⟩ : [] = as ∧ r = rest := by simpa using h
    exact ⟨gap ++ [bracket.close], .empty hgap, by simp [hs, hclose]⟩
  · next hne =>
    obtain ⟨tail, htail, heq⟩ := of_itemsUpTo hitem h
    have hstart : Starts bracket.close tail := by
      cases tail with
      | nil => exact absurd rfl htail.ne_nil
      | cons x tail =>
        obtain ⟨rfl, -⟩ : c = x ∧ r = tail ++ rest := by simpa using heq
        exact ⟨c, tail, rfl, isSpace_of_skipSpace hc, hne⟩
    exact ⟨gap ++ tail, .items hgap hstart htail, by simp [hs, heq]⟩

end

/-! ## Members -/

/-- A member of an object, of which the value starts with no space. -/
inductive MemberText (key : Reader κ) (item : κ → Reader α) : List Char → κ × α → Prop
  | mk {keyText gap gap' text : List Char} {k : κ} {a : α} : Takes key keyText k → IsGap gap →
      IsGap gap' → Starts ' ' text → Takes (item k) text a →
      MemberText key item ('"' :: keyText ++ gap ++ ':' :: gap' ++ text) (k, a)

section

variable {key : Reader κ} {item : κ → Reader α}

theorem MemberText.takes {text : List Char} {m : κ × α} (h : MemberText key item text m) :
    Takes (member key item) text m := by
  intro rest hrest
  cases h with
  | @mk keyText gap gap' text k a hkey hgap hgap' hstart htext =>
  obtain ⟨c, tail, rfl, hc, -⟩ := hstart
  have hcolon : ∀ s, Ends (':' :: s) := fun s => by simp [ends_cons, isDigit]
  have hkey := hkey _ (hgap.ends (hcolon (gap' ++ (c :: (tail ++ rest)))))
  have htext := htext rest hrest
  simp only [List.cons_append] at htext
  simp [member, hkey, htext, bind, Except.bind, pure, Except.pure, skipSpace_append hgap,
    skipSpace_append hgap', skipSpace_cons hc, skipSpace_cons (show isSpace ':' = false from rfl)]

theorem of_member (hkey : IsLocal key) (hitem : ∀ k, IsLocal (item k))
    (hnil : ∀ k p, item k [] ≠ .ok p) {s : List Char} {m : κ × α} {rest : List Char}
    (h : member key item s = .ok (m, rest)) :
    ∃ text, MemberText key item text m ∧ s = text ++ rest := by
  unfold member at h
  split at h
  · next s =>
    cases hk : key s with
    | error e => simp [hk, bind, Except.bind] at h
    | ok p =>
    obtain ⟨k, after⟩ := p
    obtain ⟨keyText, rfl, hkeyText⟩ := hkey hk
    obtain ⟨gap, hgap, hafter⟩ := exists_gap after
    simp only [hk, bind, Except.bind] at h
    split at h
    · simp at h
    · next r hc =>
      obtain ⟨gap', hgap', hr⟩ := exists_gap r
      cases hv : item k (skipSpace r) with
      | error e => simp [hv] at h
      | ok q =>
      obtain ⟨a, r'⟩ := q
      obtain ⟨rfl, rfl⟩ : (k, a) = m ∧ r' = rest := by simpa [hv, pure, Except.pure] using h
      obtain ⟨text, hs, htext⟩ := hitem k hv
      have hstart : Starts ' ' text := by
        cases text with
        | nil => exact absurd htext.ends_nil (hnil k _)
        | cons c tail =>
          have hc := isSpace_of_skipSpace hs
          exact ⟨c, tail, rfl, hc, by rintro rfl; simp [isSpace] at hc⟩
      rw [hc] at hafter
      rw [hs] at hr
      exact ⟨_, .mk hkeyText hgap hgap' hstart htext, by simp [hafter, hr]⟩
    · simp at h
  · simp at h

theorem isLocal_member (hkey : IsLocal key) (hitem : ∀ k, IsLocal (item k))
    (hnil : ∀ k p, item k [] ≠ .ok p) : IsLocal (member key item) := by
  intro s m rest h
  obtain ⟨t, ht, rfl⟩ := of_member hkey hitem hnil h
  exact ⟨t, rfl, ht.takes⟩

end

/-! ## Values -/

section

variable {text : Reader String} {nested : Option (Reader Json)}

theorem valueWith_gap {gap : List Char} (h : IsGap gap) (s : List Char) :
    valueWith text nested (gap ++ s) = valueWith text nested s := by
  simp only [valueWith, skipSpace_append h]

theorem valueWith_nil (p : Json × List Char) : valueWith text nested [] ≠ .ok p := by
  simp [valueWith, skipSpace]

theorem valueWith_quote (s : List Char) : valueWith text nested ('"' :: s) =
    (text s).map fun (text, rest) => (.string text, rest) := by
  simp [valueWith, skipSpace, isSpace]

omit text nested in
theorem isSpace_of_digit {c : Char} (hc : c = '-' ∨ isDigit c = true) : isSpace c = false := by
  rcases hc with rfl | hc
  · rfl
  · by_contra h
    simp only [Bool.not_eq_false, isSpace, Bool.or_eq_true, beq_iff_eq] at h
    rcases h with ((rfl | rfl) | rfl) | rfl <;> simp [isDigit] at hc

theorem valueWith_digit {c : Char} (hc : c = '-' ∨ isDigit c = true) (s : List Char) :
    valueWith text nested (c :: s) =
      (numberText (c :: s)).map fun (text, rest) => (.number (String.ofList text), rest) := by
  rw [valueWith, skipSpace_cons (isSpace_of_digit hc)]
  split
  case h_6 c' s' _ _ _ _ heq =>
    obtain ⟨rfl, rfl⟩ : c = c' ∧ s = s' := by simpa using heq
    exact if_pos hc
  all_goals simp_all [isDigit]

theorem word_append (a : α) (expected rest : List Char) :
    word a expected (expected ++ rest) = .ok (a, rest) := by
  induction expected with
  | nil => rfl
  | cons e expected ih => simp [word, ih]

theorem of_word {a b : α} : ∀ {expected s rest : List Char},
    word a expected s = .ok (b, rest) → a = b ∧ s = expected ++ rest
  | [], s, rest, h => by simpa [word] using h
  | e :: expected, [], rest, h => by simp [word] at h
  | e :: expected, c :: s, rest, h => by
    rw [word] at h
    split at h
    · next hc =>
      obtain ⟨rfl, rfl⟩ := of_word h
      exact ⟨rfl, by simp [hc]⟩
    · simp at h

/-- The text of a value, without space in front of it. -/
inductive ValueText (text : Reader String) (nested : Option (Reader Json)) : List Char → Json → Prop
  | null : ValueText text nested "null".toList .null
  | bool (b : Bool) : ValueText text nested (if b then "true" else "false").toList (.bool b)
  | string {s : List Char} {t : String} : Takes text s t →
      ValueText text nested ('"' :: s) (.string t)
  | number {raw t : List Char} : IsNumber raw t →
      ValueText text nested raw (.number (String.ofList t))
  | array {item : Reader Json} {s : List Char} {items : List Json} : nested = some item →
      SequenceText .list item s items → ValueText text nested ('[' :: s) (.array items)
  | object {item : Reader Json} {s : List Char} {members : List (String × Json)} :
      nested = some item → SequenceText .object (member text fun _ => item) s members →
      ValueText text nested ('\x7b' :: s) (.object (Members.ofList members))

theorem ValueText.takes {s : List Char} {v : Json} (h : ValueText text nested s v) :
    Takes (valueWith text nested) s v := by
  intro rest hrest
  cases h with
  | null =>
    have := word_append Json.null "ull".toList rest
    simpa [valueWith, skipSpace, isSpace] using this
  | bool b =>
    cases b with
    | true =>
      have := word_append (Json.bool true) "rue".toList rest
      simpa [valueWith, skipSpace, isSpace] using this
    | false =>
      have := word_append (Json.bool false) "alse".toList rest
      simpa [valueWith, skipSpace, isSpace] using this
  | string h => simp [valueWith_quote, h rest hrest, Except.map]
  | number h =>
    have hread := h.takes rest hrest
    obtain ⟨c, tail, rfl, hc⟩ := h.exists_cons
    simp only [List.cons_append] at hread
    simp [valueWith_digit hc, hread, Except.map]
  | array hitem h =>
    have hread := h.takes (Or.inl rfl) rest hrest
    simp [valueWith, skipSpace, isSpace, isDigit, hitem, hread, Except.map]
  | object hitem h =>
    have hread := h.takes (Or.inr rfl) rest hrest
    simp [valueWith, skipSpace, isSpace, isDigit, hitem, hread, Except.map]

theorem of_valueWith (htext : IsLocal text)
    (hnested : ∀ item, nested = some item → IsLocal item ∧ ∀ p, item [] ≠ .ok p)
    {s : List Char} {v : Json} {rest : List Char} (h : valueWith text nested s = .ok (v, rest)) :
    ∃ t, ValueText text nested t v ∧ skipSpace s = t ++ rest := by
  rw [valueWith] at h
  split at h
  · simp at h
  · next r hs =>
    obtain ⟨rfl, rfl⟩ := of_word h
    exact ⟨_, .null, by simp [hs]⟩
  · next r hs =>
    obtain ⟨rfl, rfl⟩ := of_word h
    exact ⟨_, .bool true, by simp [hs]⟩
  · next r hs =>
    obtain ⟨rfl, rfl⟩ := of_word h
    exact ⟨_, .bool false, by simp [hs]⟩
  · next r hs =>
    obtain ⟨⟨content, after⟩, hr, hp⟩ := of_map_ok h
    obtain ⟨rfl, rfl⟩ := Prod.mk.inj hp
    obtain ⟨t, rfl, ht⟩ := htext hr
    exact ⟨_, .string ht, hs⟩
  · next c r _ _ _ _ hs =>
    split at h
    · obtain ⟨⟨digits, after⟩, hr, hp⟩ := of_map_ok h
      obtain ⟨rfl, rfl⟩ := Prod.mk.inj hp
      obtain ⟨raw, hraw, heq⟩ := of_numberText hr
      exact ⟨raw, .number hraw, by rw [hs, heq]⟩
    split at h
    · next hc =>
      split at h
      · simp at h
      next item =>
      obtain ⟨⟨items, after⟩, hr, hp⟩ := of_map_ok h
      obtain ⟨rfl, rfl⟩ := Prod.mk.inj hp
      obtain ⟨t, ht, rfl⟩ := of_sequence (hnested item rfl).1 hr
      exact ⟨_, .array rfl ht, by simp [hs, hc]⟩
    split at h
    · next hc =>
      split at h
      · simp at h
      next item =>
      obtain ⟨⟨members, after⟩, hr, hp⟩ := of_map_ok h
      obtain ⟨rfl, rfl⟩ := Prod.mk.inj hp
      obtain ⟨hlocal, hnil⟩ := hnested item rfl
      obtain ⟨t, ht, rfl⟩ := of_sequence (isLocal_member htext (fun _ => hlocal) fun _ => hnil) hr
      exact ⟨_, .object rfl ht, by simp [hs, hc]⟩
    · simp at h

theorem isLocal_valueWith (htext : IsLocal text)
    (hnested : ∀ item, nested = some item → IsLocal item ∧ ∀ p, item [] ≠ .ok p) :
    IsLocal (valueWith text nested) := by
  intro s v rest h
  obtain ⟨t, ht, hs⟩ := of_valueWith htext hnested h
  obtain ⟨gap, hgap, heq⟩ := exists_gap s
  refine ⟨gap ++ t, by rw [heq, hs, List.append_assoc], fun r hr => ?_⟩
  rw [List.append_assoc, valueWith_gap hgap]
  exact ht.takes r hr

end

theorem valueOf_nil (text : Reader String) (depth : Nat) (p : Json × List Char) :
    valueOf text depth [] ≠ .ok p := by
  cases depth <;> exact valueWith_nil p

theorem isLocal_valueOf {text : Reader String} (htext : IsLocal text) :
    ∀ depth, IsLocal (valueOf text depth)
  | 0 => isLocal_valueWith htext (by simp)
  | depth + 1 => isLocal_valueWith htext <| by
    rintro item hitem
    obtain rfl : valueOf text depth = item := by simpa using hitem
    exact ⟨isLocal_valueOf htext depth, valueOf_nil text depth⟩

theorem isLocal_stringText : IsLocal stringText := by
  intro s t rest h
  obtain ⟨⟨body, after⟩, hr, hp⟩ := of_map_ok h
  obtain ⟨rfl, rfl⟩ := Prod.mk.inj hp
  obtain ⟨text, rfl, htext⟩ := isLocal_stringBody hr
  exact ⟨text, rfl, fun r hr => by simp [stringText, htext r hr, Except.map]⟩

theorem value_zero : value 0 = valueWith stringText none := rfl

theorem value_succ (depth : Nat) :
    value (depth + 1) = valueWith stringText (some (value depth)) := rfl

theorem value_maxDepth :
    value maxDepth = valueWith stringText (some (value (maxDepth - 1))) :=
  value_succ (maxDepth - 1)

theorem value_nil (depth : Nat) (p : Json × List Char) : value depth [] ≠ .ok p :=
  valueOf_nil stringText depth p

/-- What is read as a value does not depend on what comes after it. -/
theorem isLocal_value (depth : Nat) : IsLocal (value depth) :=
  isLocal_valueOf isLocal_stringText depth

end PluginWorkshop.Json
