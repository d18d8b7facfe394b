/-
One DER element: `asn1/genericdec.cpp`.

`TASN1DecGeneric` is given the rest of a string and finds the element at its start:
the class and tag, where the contents begin and how long they are.  Everything the
repository parses goes through `InitL`, so what it lets through decides what every
other decoder sees.

The decoder is far more liberal than DER.  It accepts a length in any number of
octets up to 127, of which only the low 32 bits count; it accepts a high tag form
for a low tag; and it adds the length to the position in 32 bits, so an element may
claim more contents than the string has.  `Header` is the grammar of what it
accepts, and `initL_eq_ok` is the theorem that it is that grammar.

`Pos` is kept as the suffix of the string that starts there: `iEncoding[Pos++]`
takes the head off it, and `encodingLength <= Pos+1` says it has at most one byte
left.
-/
import OsSecurity.E32

namespace OsSecurity

open Int List TInt

variable {T : UInt32} {l t : Bytes} {L : Int}

inductive TASN1Class where
  | EUniversal
  | EApplicationSpecific
  | EContextSpecific
  | EPrivate
  deriving DecidableEq

/-- `(TASN1Class)(b >> 6)` -/
def TASN1Class.ofByte (b : UInt8) : TASN1Class :=
  if b < 0x40 then .EUniversal
  else if b < 0x80 then .EApplicationSpecific
  else if b < 0xc0 then .EContextSpecific
  else .EPrivate

def EASN1Boolean : UInt32 := 1
def EASN1Integer : UInt32 := 2
def EASN1BitString : UInt32 := 3
def EASN1OctetString : UInt32 := 4
def EASN1Null : UInt32 := 5
def EASN1ObjectIdentifier : UInt32 := 6
def EASN1UTF8String : UInt32 := 12
def EASN1Sequence : UInt32 := 16
def EASN1Set : UInt32 := 17
def EASN1PrintableString : UInt32 := 19
def EASN1TeletexString : UInt32 := 20
def EASN1IA5String : UInt32 := 22
def EASN1UTCTime : UInt32 := 23
def EASN1GeneralizedTime : UInt32 := 24
def EASN1BMPString : UInt32 := 30

def KASN1ObjectMinLength : Nat := 2

structure TASN1DecGeneric where
  iEncoding : Bytes
  iStartOfContents : Int
  iLength : Int
  iExplicitTag : UInt32
  iClass : TASN1Class
  deriving DecidableEq

namespace TASN1DecGeneric

/-- The loop over the octets of a tag above 30, entered at the first of them. -/
def initTag (T : UInt32) : Bytes → Leaving (UInt32 × Bytes)
  | [] => panic
  | b :: rest =>
    if 128 ≤ b then
      if rest.length ≤ 1 then leave KErrArgument
      else initTag ((T <<< 7) + (b &&& 127).toUInt32) rest
    else .ok ((T <<< 7) + b.toUInt32, rest)

/-- The loop over `LengthOfLength` length octets. -/
def initLength : Nat → Int → Bytes → Leaving (Int × Bytes)
  | 0, Length, rest => .ok (Length, rest)
  | _ + 1, _, [] => leave KErrArgument
  | n + 1, Length, b :: rest =>
    if rest = [] then leave KErrArgument
    else initLength n (TInt.wrap (TInt.wrap (Length * 256) + b.toNat)) rest

/-- The length octets, at the position after the tag. -/
def initLengthOctets : Bytes → Leaving (Int × Bytes)
  | [] => panic
  | l :: rest =>
    if 128 < l then
      if rest = [] then leave KErrArgument
      else initLength (l &&& 127).toNat 0 rest
    else if l = 128 then
      -- indefinite length
      leave KErrNotSupported
    else .ok (l.toNat, rest)

/-- The tag octets, at the start of the string. -/
def initTagOctets : Bytes → Leaving (UInt32 × Bytes)
  | [] => panic
  | b :: rest =>
    if b &&& 0x1f = 0x1f then
      if rest.length ≤ 1 then leave KErrArgument
      else initTag 0 rest
    else .ok ((b &&& 0x1f).toUInt32, rest)

/-- `TASN1DecGeneric::InitL` on a decoder constructed over `aSource`. -/
def initL (aSource : Bytes) : Leaving TASN1DecGeneric := do
  if aSource.length < KASN1ObjectMinLength then
    leave KErrArgument
  let (T, afterTag) ← initTagOctets aSource
  let (Length, contents) ← initLengthOctets afterTag
  let Pos : Int := aSource.length - contents.length
  if (aSource.length : Int) < TInt.wrap (Length + Pos) ∨ Length < 0 then
    leave KErrArgument
  return {
    iEncoding := aSource
    iStartOfContents := Pos
    iLength := Length
    iExplicitTag := T
    iClass := TASN1Class.ofByte (aSource.headD 0) }

def getContentDER (g : TASN1DecGeneric) : Leaving Bytes :=
  TDes.mid g.iEncoding g.iStartOfContents g.iLength

def lengthDER (g : TASN1DecGeneric) : Int := TInt.wrap (g.iLength + g.iStartOfContents)

def lengthDERContent (g : TASN1DecGeneric) : Int := g.iLength

def lengthDERHeader (g : TASN1DecGeneric) : Int :=
  TInt.wrap (g.lengthDER - g.lengthDERContent)

def encoding (g : TASN1DecGeneric) : Leaving Bytes := TDes.left g.iEncoding g.lengthDER

def tag (g : TASN1DecGeneric) : UInt32 := g.iExplicitTag

def cls (g : TASN1DecGeneric) : TASN1Class := g.iClass

end TASN1DecGeneric

/-! ### The headers the decoder accepts

A header is tag octets followed by length octets, each read by its own loop above.
Neither part is DER: nothing asks a length for the fewest octets, or a tag below 31
for the low form.
-/

/-- What the continued octets of a long tag add up to. -/
def tagValue (T : UInt32) (cs : Bytes) : UInt32 :=
  cs.foldl (fun T b => (T <<< 7) + (b &&& 127).toUInt32) T

/-- The octets of one tag field, and the tag they carry. -/
inductive TagOctets : Bytes → UInt32 → Prop
  | low {b : UInt8} (h : b &&& 0x1f ≠ 0x1f) : TagOctets [b] (b &&& 0x1f).toUInt32
  | high {b c : UInt8} {cs : Bytes} (h : b &&& 0x1f = 0x1f) (hcs : ∀ x ∈ cs, 128 ≤ x)
      (hc : c < 128) :
      TagOctets (b :: cs ++ [c]) ((tagValue 0 cs <<< 7) + c.toUInt32)

/-- What length octets after the first add up to, in 32 bits. -/
def lengthValue (L : Int) (ls : Bytes) : Int :=
  ls.foldl (fun L b => TInt.wrap (TInt.wrap (L * 256) + b.toNat)) L

/-- The octets of one length field, and the length they carry. -/
inductive LengthOctets : Bytes → Int → Prop
  | short {l : UInt8} (h : l < 128) : LengthOctets [l] l.toNat
  | long {l : UInt8} {ls : Bytes} (h : 128 < l) (hls : ls.length = (l &&& 127).toNat) :
      LengthOctets (l :: ls) (lengthValue 0 ls)

/-- A tag field and a length field in front of `rest`, as `InitL` takes them apart. -/
structure Header (aSource : Bytes) (g : TASN1DecGeneric) (t l rest : Bytes) : Prop where
  source : aSource = t ++ l ++ rest
  tag : TagOctets t g.iExplicitTag
  length : LengthOctets l g.iLength
  -- a length in long form must have something behind it
  behind : 2 ≤ l.length → rest ≠ []
  nonneg : 0 ≤ g.iLength
  fits : TInt.wrap (g.iLength + (t ++ l).length) ≤ aSource.length
  encoding : g.iEncoding = aSource
  start : g.iStartOfContents = (t ++ l).length
  cls : g.iClass = TASN1Class.ofByte (aSource.headD 0)

theorem TagOctets.ne_nil (h : TagOctets t T) : t ≠ [] := by
  cases h <;> simp

theorem LengthOctets.ne_nil (h : LengthOctets l L) : l ≠ [] := by
  cases h <;> simp

/-- A length in long form has at least one octet more. -/
theorem long_count_pos {x : UInt8} (h : 128 < x) : 0 < (x &&& 127).toNat := by
  have hlt := UInt8.lt_iff_toNat_lt.mp h
  have h255 := x.toNat_lt
  rw [UInt8.toNat_and]
  have : x.toNat &&& 127 = x.toNat % 128 := Nat.and_two_pow_sub_one_eq_mod _ 7
  simp only [UInt8.reduceToNat, Nat.reducePow] at *
  omega

namespace TASN1DecGeneric

private theorem initTag_ok : ∀ (bs : Bytes) (T T' : UInt32) (rest : Bytes), 2 ≤ bs.length →
    (initTag T bs = .ok (T', rest) ↔ ∃ cs c, bs = cs ++ c :: rest ∧ (∀ x ∈ cs, 128 ≤ x) ∧
      c < 128 ∧ rest ≠ [] ∧ T' = (tagValue T cs <<< 7) + c.toUInt32) := by
  intro bs
  induction bs with
  | nil => intro T T' rest h; simp at h
  | cons b bs ih =>
      intro T T' rest hlen
      rw [initTag]
      by_cases hb : 128 ≤ b
      · rw [if_pos hb]
        by_cases hshort : bs.length ≤ 1
        · rw [if_pos hshort]
          simp only [leave_ne_ok, false_iff, not_exists]
          rintro cs c ⟨hbs, hcs, hc, hrest, -⟩
          -- `b` is not the last octet of the tag, so two more must follow it
          cases cs with
          | nil =>
            simp only [nil_append, List.cons.injEq] at hbs
            exact absurd (hbs.1 ▸ hb) (UInt8.not_le.mpr hc)
          | cons x cs =>
            have hlen' := congrArg List.length hbs
            have := length_pos_iff.mpr hrest
            simp at hlen'
            omega
        · rw [if_neg hshort, ih _ _ _ (by omega)]
          constructor
          · rintro ⟨cs, c, hbs, hcs, hc, hrest, hT⟩
            refine ⟨b :: cs, c, by simp [hbs], ?_, hc, hrest, by simpa [tagValue] using hT⟩
            intro x hx
            rcases mem_cons.mp hx with rfl | hx'
            · exact hb
            · exact hcs x hx'
          · rintro ⟨cs, c, hbs, hcs, hc, hrest, hT⟩
            cases cs with
            | nil =>
              simp only [nil_append, List.cons.injEq] at hbs
              exact absurd (hbs.1 ▸ hb) (UInt8.not_le.mpr hc)
            | cons x cs =>
              simp only [cons_append, List.cons.injEq] at hbs
              obtain ⟨rfl, hbs⟩ := hbs
              exact ⟨cs, c, hbs, fun y hy => hcs y (by simp [hy]), hc, hrest,
                by simpa [tagValue] using hT⟩
      · rw [if_neg hb]
        have hlt : b < 128 := UInt8.not_le.mp hb
        simp only [Except.ok.injEq, Prod.mk.injEq]
        constructor
        · rintro ⟨rfl, rfl⟩
          refine ⟨[], b, rfl, by simp, hlt, ?_, rfl⟩
          intro hnil
          simp [hnil] at hlen
        · rintro ⟨cs, c, hbs, hcs, hc, hrest, hT⟩
          cases cs with
          | nil =>
            simp only [nil_append, List.cons.injEq] at hbs
            obtain ⟨rfl, rfl⟩ := hbs
            exact ⟨hT.symm, rfl⟩
          | cons x cs =>
            simp only [cons_append, List.cons.injEq] at hbs
            exact absurd (hcs x (by simp)) (hbs.1 ▸ hb)

private theorem initLength_ok : ∀ (n : Nat) (L L' : Int) (bs rest : Bytes),
    (initLength n L bs = .ok (L', rest) ↔ ∃ ls, bs = ls ++ rest ∧ ls.length = n ∧
      (n ≠ 0 → rest ≠ []) ∧ L' = lengthValue L ls) := by
  intro n
  induction n with
  | zero =>
      intro L L' bs rest
      simp only [initLength, Except.ok.injEq, Prod.mk.injEq]
      constructor
      · rintro ⟨rfl, rfl⟩
        exact ⟨[], rfl, rfl, by simp, rfl⟩
      · rintro ⟨ls, hbs, hls, -, hL⟩
        obtain rfl := length_eq_zero_iff.mp hls
        exact ⟨hL.symm, by simpa using hbs⟩
  | succ n ih =>
      intro L L' bs rest
      cases bs with
      | nil =>
        simp only [initLength, leave_ne_ok, false_iff, not_exists]
        rintro ls ⟨hbs, hls, -, -⟩
        have := congrArg List.length hbs
        simp at this
        omega
      | cons b bs =>
        rw [initLength]
        by_cases hnil : bs = []
        · rw [if_pos hnil]
          simp only [leave_ne_ok, false_iff, not_exists]
          rintro ls ⟨hbs, hls, hrest, -⟩
          have h1 := congrArg List.length hbs
          have h2 := length_pos_iff.mpr (hrest (by omega))
          simp [hnil] at h1
          omega
        · rw [if_neg hnil, ih]
          constructor
          · rintro ⟨ls, hbs, hls, hrest, hL⟩
            refine ⟨b :: ls, by simp [hbs], by simp [hls], ?_, by simpa [lengthValue] using hL⟩
            intro _ hr
            rcases Nat.eq_zero_or_pos n with hn | hn
            · obtain rfl := length_eq_zero_iff.mp (hls.trans hn)
              exact hnil (by simp [hbs, hr])
            · exact hrest (by omega) hr
          · rintro ⟨ls, hbs, hls, hrest, hL⟩
            cases ls with
            | nil => simp at hls
            | cons x ls =>
              simp only [cons_append, List.cons.injEq] at hbs
              obtain ⟨rfl, hbs⟩ := hbs
              exact ⟨ls, hbs, by simpa using hls, fun _ => hrest (by omega),
                by simpa [lengthValue] using hL⟩

private theorem initTagOctets_ok {bs rest : Bytes} (hlen : 2 ≤ bs.length) :
    initTagOctets bs = .ok (T, rest) ↔ ∃ t, bs = t ++ rest ∧ TagOctets t T ∧ rest ≠ [] := by
  cases bs with
  | nil => simp at hlen
  | cons b bs =>
      rw [initTagOctets]
      by_cases hb : b &&& 0x1f = 0x1f
      · rw [if_pos hb]
        by_cases hshort : bs.length ≤ 1
        · rw [if_pos hshort]
          simp only [leave_ne_ok, false_iff, not_exists]
          rintro t ⟨hbs, ht, hrest⟩
          have h1 := congrArg List.length hbs
          have h2 := length_pos_iff.mpr hrest
          cases ht with
          | low h =>
            simp only [cons_append, List.cons.injEq] at hbs
            exact h (hbs.1 ▸ hb)
          | high h hcs hc => simp at h1; omega
        · rw [if_neg hshort, initTag_ok _ _ _ _ (by omega)]
          constructor
          · rintro ⟨cs, c, rfl, hcs, hc, hrest, rfl⟩
            exact ⟨b :: cs ++ [c], by simp, .high hb hcs hc, hrest⟩
          · rintro ⟨t, hbs, ht, hrest⟩
            cases ht with
            | low h =>
              simp only [cons_append, List.cons.injEq] at hbs
              exact absurd (hbs.1 ▸ hb) h
            | @high b' c cs h hcs hc =>
              simp only [cons_append, List.cons.injEq] at hbs
              exact ⟨cs, c, by simpa using hbs.2, hcs, hc, hrest, rfl⟩
      · rw [if_neg hb]
        simp only [Except.ok.injEq, Prod.mk.injEq]
        constructor
        · rintro ⟨rfl, rfl⟩
          refine ⟨[b], rfl, .low hb, ?_⟩
          intro hnil
          simp [hnil] at hlen
        · rintro ⟨t, hbs, ht, hrest⟩
          cases ht with
          | low h =>
            simp only [cons_append, nil_append, List.cons.injEq] at hbs
            obtain ⟨rfl, rfl⟩ := hbs
            exact ⟨rfl, rfl⟩
          | high h hcs hc =>
            simp only [cons_append, List.cons.injEq] at hbs
            exact absurd (hbs.1 ▸ h) hb

private theorem initLengthOctets_ok {bs rest : Bytes} :
    initLengthOctets bs = .ok (L, rest) ↔
      ∃ l, bs = l ++ rest ∧ LengthOctets l L ∧ (2 ≤ l.length → rest ≠ []) := by
  cases bs with
  | nil =>
      simp only [initLengthOctets, panic_ne_ok, false_iff, not_exists]
      rintro l ⟨hbs, hl, -⟩
      exact hl.ne_nil (append_eq_nil_iff.mp hbs.symm).1
  | cons x bs =>
      rw [initLengthOctets]
      by_cases hlong : 128 < x
      · rw [if_pos hlong]
        have hpos : (x &&& 127).toNat ≠ 0 := Nat.ne_of_gt (long_count_pos hlong)
        have hiff : (if bs = [] then leave KErrArgument else initLength (x &&& 127).toNat 0 bs)
            = .ok (L, rest) ↔ initLength (x &&& 127).toNat 0 bs = .ok (L, rest) := by
          by_cases hnil : bs = []
          · rw [if_pos hnil, initLength_ok]
            simp only [leave_ne_ok, false_iff, not_exists]
            rintro ls ⟨hbs, hls, hrest, -⟩
            rw [hnil] at hbs
            exact hrest hpos (append_eq_nil_iff.mp hbs.symm).2
          · rw [if_neg hnil]
        rw [hiff, initLength_ok]
        constructor
        · rintro ⟨ls, rfl, hls, hrest, rfl⟩
          exact ⟨x :: ls, rfl, .long hlong hls, fun _ => hrest hpos⟩
        · rintro ⟨l, hbs, hl, hrest⟩
          cases hl with
          | short h =>
            simp only [cons_append, List.cons.injEq] at hbs
            exact absurd (hbs.1 ▸ hlong) (UInt8.lt_asymm h)
          | @long y ls h hls =>
            simp only [cons_append, List.cons.injEq] at hbs
            obtain ⟨rfl, rfl⟩ := hbs
            refine ⟨ls, rfl, hls, fun _ => hrest ?_, rfl⟩
            simp only [length_cons]
            omega
      · rw [if_neg hlong]
        by_cases h128 : x = 128
        · rw [if_pos h128]
          simp only [leave_ne_ok, false_iff, not_exists]
          rintro l ⟨hbs, hl, -⟩
          cases hl with
          | short h =>
            simp only [cons_append, List.cons.injEq] at hbs
            rw [← hbs.1, h128] at h
            exact absurd h (by decide)
          | long h hls =>
            simp only [cons_append, List.cons.injEq] at hbs
            exact absurd (hbs.1 ▸ h) hlong
        · rw [if_neg h128]
          simp only [Except.ok.injEq, Prod.mk.injEq]
          constructor
          · rintro ⟨rfl, rfl⟩
            refine ⟨[x], rfl, .short ?_, by simp⟩
            exact UInt8.lt_of_le_of_ne (UInt8.not_lt.mp hlong) h128
          · rintro ⟨l, hbs, hl, hrest⟩
            cases hl with
            | short h =>
              simp only [cons_append, nil_append, List.cons.injEq] at hbs
              obtain ⟨rfl, rfl⟩ := hbs
              exact ⟨rfl, rfl⟩
            | long h hls =>
              simp only [cons_append, List.cons.injEq] at hbs
              exact absurd (hbs.1 ▸ h) hlong

/-- **`InitL` accepts exactly a header whose length, in 32 bits, stays inside the string.** -/
theorem initL_eq_ok {aSource : Bytes} {g : TASN1DecGeneric} :
    initL aSource = .ok g ↔ ∃ t l rest, Header aSource g t l rest := by
  unfold initL
  by_cases hlen : aSource.length < KASN1ObjectMinLength
  · rw [if_pos hlen]
    constructor
    · intro h; simp [leave] at h
    · rintro ⟨t, l, rest, h⟩
      have h1 := length_pos_iff.mpr h.tag.ne_nil
      have h2 := length_pos_iff.mpr h.length.ne_nil
      have h3 := congrArg List.length h.source
      simp only [length_append, KASN1ObjectMinLength] at h3 hlen
      omega
  · rw [if_neg hlen]
    have hlen2 : 2 ≤ aSource.length := by simp only [KASN1ObjectMinLength] at hlen; omega
    simp only [leaving_pure, bind_eq_ok, Prod.exists]
    constructor
    · rintro ⟨T, afterTag, hT, L, contents, hL, h⟩
      obtain ⟨t, ht, hTag, -⟩ := (initTagOctets_ok hlen2).mp hT
      obtain ⟨l, hl, hLen, hbehind⟩ := initLengthOctets_ok.mp hL
      have hsrc : aSource = t ++ l ++ contents := by rw [ht, hl, List.append_assoc]
      have hpos : (aSource.length : Int) - contents.length = (t ++ l).length := by
        rw [hsrc]; simp only [length_append]; omega
      rw [hpos] at h
      split at h
      · simp [leave] at h
      · rename_i hc
        rw [not_or] at hc
        have hnonneg : 0 ≤ L := Int.not_lt.mp hc.2
        have hfits := Int.not_lt.mp hc.1
        simp only [Except.ok.injEq] at h
        subst h
        exact ⟨t, l, contents, hsrc, hTag, hLen, hbehind, hnonneg, hfits, rfl, rfl, rfl⟩
    · rintro ⟨t, l, rest, h⟩
      have hne : l ++ rest ≠ [] := by simp [h.length.ne_nil]
      have hpos : (aSource.length : Int) - rest.length = (t ++ l).length := by
        rw [h.source]; simp only [length_append]; omega
      refine ⟨g.iExplicitTag, l ++ rest, (initTagOctets_ok hlen2).mpr
        ⟨t, by rw [h.source, List.append_assoc], h.tag, hne⟩, g.iLength, rest,
        initLengthOctets_ok.mpr ⟨l, rfl, h.length, h.behind⟩, ?_⟩
      have h1 := h.nonneg
      have h2 := h.fits
      rw [hpos, if_neg (by omega)]
      cases g
      simp only [Except.ok.injEq, TASN1DecGeneric.mk.injEq]
      exact ⟨h.encoding.symm, h.start.symm, trivial, trivial, h.cls.symm⟩

end TASN1DecGeneric

/-! ### Elements that stay inside the string

The test in `InitL` is on the 32-bit sum, so it also lets through an element whose end
lies past 2^31.  No accessor survives that: the position behind it is negative, and
`GetContentDER` and `Encoding` panic.  What is left are the elements the string holds
in full.
-/

/-- An element at the start of a string: tag, length and as many contents as it says. -/
structure Element (aSource t l body rest : Bytes) (T : UInt32) : Prop where
  source : aSource = t ++ l ++ body ++ rest
  tag : TagOctets t T
  length : LengthOctets l body.length
  behind : 2 ≤ l.length → body ++ rest ≠ []

theorem lengthValue_le {ls : Bytes} (hL : L ≤ KMaxTInt) : lengthValue L ls ≤ KMaxTInt := by
  induction ls generalizing L with
  | nil => exact hL
  | cons b ls ih => exact ih (wrap_le _)

theorem LengthOctets.le (h : LengthOctets l L) : L ≤ KMaxTInt := by
  cases h with
  | @short b h =>
      have := b.toNat_lt
      unfold KMaxTInt
      omega
  | long h hls => exact lengthValue_le (by decide)

namespace TASN1DecGeneric

/-- The sum of a length and a position, both in range, is negative once it overflows. -/
private theorem wrap_add_cases {p : Int} (hL : 0 ≤ L) (hL' : L ≤ KMaxTInt) (hp : 0 ≤ p)
    (hp' : p ≤ KMaxTInt) :
    (wrap (L + p) = L + p ∧ L + p ≤ KMaxTInt) ∨ (wrap (L + p) < 0 ∧ KMaxTInt < L + p) := by
  by_cases h : L + p ≤ KMaxTInt
  · exact Or.inl ⟨wrap_of_range (by unfold KMinTInt; omega) h, h⟩
  · refine Or.inr ⟨?_, by omega⟩
    have hsub : wrap (L + p) = wrap (L + p - 4294967296) := by
      exact (sub_bmod_right (L + p) 4294967296).symm
    rw [hsub, wrap_of_range (by unfold KMinTInt KMaxTInt at *; omega)
      (by unfold KMaxTInt at *; omega)]
    unfold KMaxTInt at *
    omega

/-- **`InitL` succeeds with a position behind the element that is not negative exactly on
an element the string holds.** -/
theorem initL_inside {aSource : Bytes} {g : TASN1DecGeneric} (hlen : aSource.length ≤ KMaxTInt) :
    (initL aSource = .ok g ∧ ¬ g.lengthDER < 0) ↔ ∃ t l body rest T,
      Element aSource t l body rest T ∧
        g = ⟨aSource, (t ++ l).length, body.length, T, TASN1Class.ofByte (aSource.headD 0)⟩ := by
  rw [initL_eq_ok]
  constructor
  · rintro ⟨⟨t, l, contents, h⟩, hpos⟩
    have hsrc := congrArg List.length h.source
    simp only [length_append] at hsrc
    have hwrap := wrap_add_cases h.nonneg h.length.le (natCast_nonneg (t ++ l).length)
      (by simp only [length_append]; omega)
    have hfits := h.fits
    simp only [lengthDER, h.start] at hpos
    rcases hwrap with ⟨hw, -⟩ | ⟨hw, -⟩
    · have hin : g.iLength ≤ contents.length := by
        rw [hw] at hfits
        simp only [length_append] at hfits
        omega
      have hnonneg := h.nonneg
      have hbody : ((contents.take g.iLength.toNat).length : Int) = g.iLength := by
        rw [length_take]
        omega
      refine ⟨t, l, contents.take g.iLength.toNat, contents.drop g.iLength.toNat,
        g.iExplicitTag, ⟨?_, h.tag, by rw [hbody]; exact h.length, ?_⟩, ?_⟩
      · rw [List.append_assoc _ (contents.take _), take_append_drop]
        exact h.source
      · rw [take_append_drop]
        exact h.behind
      · cases g
        simp only [TASN1DecGeneric.mk.injEq]
        exact ⟨h.encoding, h.start, hbody.symm, trivial, h.cls⟩
    · exact absurd hw hpos
  · rintro ⟨t, l, body, rest, T, h, rfl⟩
    have hsrc := congrArg List.length h.source
    simp only [length_append] at hsrc
    have hw : wrap ((body.length : Int) + (t ++ l).length) = body.length + (t ++ l).length := by
      refine wrap_of_range ?_ ?_
      · unfold KMinTInt; omega
      · simp only [length_append]; omega
    constructor
    · refine ⟨t, l, body ++ rest, ⟨?_, h.tag, h.length, h.behind, ?_, ?_, rfl, rfl, rfl⟩⟩
      · rw [h.source, List.append_assoc]
      · exact natCast_nonneg _
      · rw [hw]
        simp only [length_append]
        omega
    · simp only [lengthDER, hw]
      omega

/-- Two headers at the start of one string are the same header. -/
private theorem header_unique {t' l' x x' : Bytes} {T' : UInt32} {L' : Int} (ht : TagOctets t T)
    (hl : LengthOctets l L) (hx : 2 ≤ l.length → x ≠ []) (ht' : TagOctets t' T')
    (hl' : LengthOctets l' L') (hx' : 2 ≤ l'.length → x' ≠ []) (h : t ++ l ++ x = t' ++ l' ++ x') :
    t = t' ∧ l = l' ∧ T = T' ∧ L = L' := by
  rw [List.append_assoc, List.append_assoc] at h
  have hlen : 2 ≤ (t ++ (l ++ x)).length := by
    have h1 := length_pos_iff.mpr ht.ne_nil
    have h2 := length_pos_iff.mpr hl.ne_nil
    simp only [length_append]
    omega
  have hT : initTagOctets (t ++ (l ++ x)) = .ok (T, l ++ x) :=
    (initTagOctets_ok hlen).mpr ⟨t, rfl, ht, by simp [hl.ne_nil]⟩
  have hT' : initTagOctets (t ++ (l ++ x)) = .ok (T', l' ++ x') :=
    (initTagOctets_ok hlen).mpr ⟨t', h, ht', by simp [hl'.ne_nil]⟩
  obtain ⟨rfl, hrest⟩ := Prod.mk.inj (Except.ok.inj (hT.symm.trans hT'))
  have hL : initLengthOctets (l ++ x) = .ok (L, x) := initLengthOctets_ok.mpr ⟨l, rfl, hl, hx⟩
  have hL' : initLengthOctets (l ++ x) = .ok (L', x') :=
    initLengthOctets_ok.mpr ⟨l', hrest, hl', hx'⟩
  obtain ⟨rfl, rfl⟩ := Prod.mk.inj (Except.ok.inj (hL.symm.trans hL'))
  rw [hrest] at h
  exact ⟨append_cancel_right h, append_cancel_right hrest, rfl, rfl⟩

theorem Element.unique {s b r t' l' b' r' : Bytes} {T' : UInt32} (h : Element s t l b r T)
    (h' : Element s t' l' b' r' T') : t = t' ∧ l = l' ∧ b = b' ∧ r = r' ∧ T = T' := by
  have hs := h.source.symm.trans h'.source
  rw [List.append_assoc, List.append_assoc _ b'] at hs
  obtain ⟨rfl, rfl, rfl, hL⟩ :=
    header_unique h.tag h.length h.behind h'.tag h'.length h'.behind hs
  obtain ⟨rfl, rfl⟩ := append_inj (append_cancel_left hs) (ofNat.inj hL)
  exact ⟨rfl, rfl, rfl, rfl, rfl⟩

theorem Element.extend {s b r : Bytes} (h : Element s t l b r T) (d : Bytes) :
    Element (s ++ d) t l b (r ++ d) T := by
  refine ⟨by rw [h.source, List.append_assoc], h.tag, h.length, ?_⟩
  intro hlong hnil
  rw [← List.append_assoc] at hnil
  exact h.behind hlong (append_eq_nil_iff.mp hnil).1

/-- What the accessors of an element the string holds return. -/
theorem Element.accessors {aSource body rest : Bytes} (c : TASN1Class)
    (hlen : aSource.length ≤ KMaxTInt) (h : Element aSource t l body rest T) :
    let g : TASN1DecGeneric := ⟨aSource, (t ++ l).length, body.length, T, c⟩
    g.lengthDER = (t ++ l ++ body).length ∧ g.getContentDER = .ok body ∧
      g.encoding = .ok (t ++ l ++ body) ∧ aSource.drop g.lengthDER.toNat = rest := by
  have hsrc := congrArg List.length h.source
  simp only [length_append] at hsrc
  have hder : wrap ((body.length : Int) + (t ++ l).length) = (t ++ l ++ body).length := by
    rw [wrap_of_range (by unfold KMinTInt; omega) (by simp only [length_append]; omega)]
    simp only [length_append]
    omega
  refine ⟨hder, ?_, ?_, ?_⟩
  · unfold getContentDER TDes.mid
    rw [if_neg (by simp only [length_append]; omega)]
    simp only [toNat_natCast, Except.ok.injEq]
    rw [h.source, List.append_assoc _ body, drop_left, take_left]
  · unfold encoding lengthDER TDes.left
    rw [hder, if_neg (by omega)]
    simp only [toNat_natCast, Except.ok.injEq]
    rw [h.source, take_left]
  · simp only [lengthDER, hder, toNat_natCast]
    rw [h.source, drop_left]

end TASN1DecGeneric

end OsSecurity
