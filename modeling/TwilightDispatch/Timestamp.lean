import TwilightDispatch.Models
import TwilightDispatch.Calendar
import TwilightDispatch.Decimal

/-!
# Timestamps

The text of a `FormattedDateTime` and its way back. Serialising formats a date with one format
description; deserialising appends `+00` to the text and parses it with another, which ends in the
hour of the offset. Both descriptions are lists of literals and components, and a component is read
back from its text and whatever follows it: the subsecond, whose length varies, because a `+`
follows (`parseItems_format`).

How a component is printed and read is a parameter, with its documented behaviour as hypotheses.
-/

namespace TwilightDispatch

open Calendar Decimal

/-! ## The time library -/

/-- The components that the two format descriptions name. -/
inductive Component where
  | year | month | day | hour | minute | second | subsecond | offsetHour
  deriving DecidableEq

/-- A part of a format description. -/
inductive FormatItem where
  | literal (text : String)
  | component (component : Component)
  deriving DecidableEq

/-- The formatting of the time library: `format_description::parse`, the text of a component, and
how a component is read from the front of a text. -/
structure TimeFormat where
  describe : String → Option (List FormatItem)
  print : Component → ℤ → List Char
  read : Component → List Char → Option (ℤ × List Char)

/-- The number of digits of a component that has a fixed one. -/
def Component.width : Component → Option ℕ
  | .year => some 4
  | .subsecond => none
  | _ => some 2

/-- The values of a component, in the years with four digits. -/
def Component.Admits : Component → ℕ → Prop
  | .year, v => v ≤ 9999
  | .month, v => 0 < v ∧ v ≤ 12
  | .day, v => 0 < v ∧ v ≤ 31
  | .hour, v => v < 24
  | .minute, v => v < 60
  | .second, v => v < 60
  | .subsecond, v => v < 10 ^ 9
  | .offsetHour, v => v < 24

/-- The format description of `serialize`. -/
def serializeItems : List FormatItem :=
  [.component .year, .literal "-", .component .month, .literal "-", .component .day, .literal "T",
    .component .hour, .literal ":", .component .minute, .literal ":", .component .second,
    .literal ".", .component .subsecond]

/-- The format description of `deserialize`. -/
def deserializeItems : List FormatItem :=
  serializeItems ++ [.literal "+", .component .offsetHour]

/-- Components of a fixed width are padded with zeros and read as that many digits. The subsecond
is printed with the fewest digits of one to nine that give it, and is read as all the digits there
are. -/
structure TimeFormat.Documented (lib : TimeFormat) : Prop where
  describe_serialize :
    lib.describe "[year]-[month]-[day]T[hour]:[minute]:[second].[subsecond]" = some serializeItems
  describe_deserialize :
    lib.describe "[year]-[month]-[day]T[hour]:[minute]:[second].[subsecond]+[offset_hour]" =
      some deserializeItems
  print_fixed : ∀ (c : Component) (w v : ℕ), c.width = some w → c.Admits v → lib.print c v = pad w v
  read_fixed : ∀ (c : Component) (w v : ℕ) rest, c.width = some w → c.Admits v →
    lib.read c (pad w v ++ rest) = some ((v : ℤ), rest)
  print_subsecond : ∀ v : ℕ, v < 10 ^ 9 → ∃ k m, 0 < k ∧ k ≤ 9 ∧ v = m * 10 ^ (9 - k) ∧
    (k = 1 ∨ m % 10 ≠ 0) ∧ lib.print .subsecond v = pad k m
  read_subsecond : ∀ k m rest, 0 < k → k ≤ 9 → m < 10 ^ k →
    (∀ c ∈ rest.head?, c.isDigit = false) →
    lib.read .subsecond (pad k m ++ rest) = some (((m * 10 ^ (9 - k) : ℕ) : ℤ), rest)

/-- Before the year zero a year has a sign. -/
structure TimeFormat.Signed (lib : TimeFormat) : Prop extends lib.Documented where
  print_negative : ∀ v : ℕ, 0 < v → v ≤ 9999 → lib.print .year (-v) = '-' :: pad 4 v
  read_negative : ∀ v : ℕ, ∀ rest, 0 < v → v ≤ 9999 →
    lib.read .year ('-' :: pad 4 v ++ rest) = some (-(v : ℤ), rest)

/-! ## A documented time library -/

namespace TimeFormat

/-- The component with a name. -/
def component? (name : List Char) : Option Component :=
  if name = "year".toList then some .year
  else if name = "month".toList then some .month
  else if name = "day".toList then some .day
  else if name = "hour".toList then some .hour
  else if name = "minute".toList then some .minute
  else if name = "second".toList then some .second
  else if name = "subsecond".toList then some .subsecond
  else if name = "offset_hour".toList then some .offsetHour
  else none

def literal (text : List Char) : List FormatItem :=
  if text = [] then [] else [.literal (String.ofList text)]

/-- The items of the groups `name]text` that opening brackets begin. -/
def describeGroups : List (List Char) → Option (List FormatItem)
  | [] => some []
  | group :: groups => do
    let component ← component? (group.takeWhile (· ≠ ']'))
    let items ← describeGroups groups
    return .component component :: literal ((group.dropWhile (· ≠ ']')).drop 1) ++ items

def describeChars (text : List Char) : Option (List FormatItem) := do
  let items ← describeGroups ((text.splitOn '[').drop 1)
  return literal (text.takeWhile (· ≠ '[')) ++ items

/-- The digits of a component that is not negative. -/
def printNat : Component → ℕ → List Char
  | .year, v => pad 4 v
  | .subsecond, v => trimmed 8 v
  | _, v => pad 2 v

/-- A sign, if there is one, and digits. -/
def readSigned (width : ℕ) (input : List Char) : Option (ℤ × List Char) :=
  if input.head? = some '-' then
    (readExactly width input.tail).map fun r => (-(r.1 : ℤ), r.2)
  else if input.head? = some '+' then
    (readExactly width input.tail).map fun r => ((r.1 : ℤ), r.2)
  else (readExactly width input).map fun r => ((r.1 : ℤ), r.2)

def readComponent : Component → List Char → Option (ℤ × List Char)
  | .year, input => readSigned 4 input
  | .offsetHour, input => readSigned 2 input
  | .subsecond, input => (readFraction 9 input).map fun r => ((r.1 : ℤ), r.2)
  | _, input => (readExactly 2 input).map fun r => ((r.1 : ℤ), r.2)

/-- A time library as it is documented. -/
def standard : TimeFormat where
  describe text := describeChars text.toList
  print c v := if v < 0 then '-' :: printNat c v.natAbs else printNat c v.natAbs
  read := readComponent

theorem readSigned_pad {w v : ℕ} (hw : 0 < w) (h : v < 10 ^ w) (rest : List Char) :
    readSigned w (pad w v ++ rest) = some ((v : ℤ), rest) := by
  obtain ⟨c, cs, hcons, hc⟩ := exists_pad_eq_cons hw v
  have hsign : ∀ sign : Char, sign.isDigit = false →
      (pad w v ++ rest).head? ≠ some sign := by
    rintro sign hsign hhead
    rw [hcons] at hhead
    obtain rfl := Option.some.inj hhead
    rw [hc] at hsign
    cases hsign
  unfold readSigned
  rw [if_neg (hsign '-' (by decide)), if_neg (hsign '+' (by decide)), readExactly_pad h]
  rfl

theorem standard_print (c : Component) (v : ℕ) : standard.print c v = printNat c v := by
  unfold standard
  simp only
  rw [if_neg (by omega), Int.natAbs_natCast]

theorem standard_documented : standard.Documented where
  describe_serialize := by decide
  describe_deserialize := by decide
  print_fixed c w v hw _ := by
    rw [standard_print]
    cases c <;> first | cases hw; rfl | cases hw
  read_fixed c w v rest hw hadmits := by
    cases c with
    | subsecond => cases hw
    | year =>
      obtain rfl := Option.some.inj hw
      exact readSigned_pad (by decide) (Nat.lt_succ_of_le hadmits) rest
    | offsetHour =>
      obtain rfl := Option.some.inj hw
      exact readSigned_pad (by decide) (Nat.lt_trans hadmits (by decide)) rest
    | _ =>
      obtain rfl := Option.some.inj hw
      have hlt : v < 10 ^ 2 := by
        unfold Component.Admits at hadmits
        omega
      show (readExactly 2 _).map _ = _
      rw [readExactly_pad hlt]
      rfl
  print_subsecond v _ := by
    rw [standard_print]
    exact trimmed_spec 8 v
  read_subsecond k m rest hk hle hm hrest := by
    show (readFraction 9 _).map _ = _
    rw [readFraction_pad hk hle hm hrest]
    rfl

theorem standard_signed : standard.Signed where
  toDocumented := standard_documented
  print_negative v hv _ := by
    unfold standard
    simp only
    rw [if_pos (by omega), Int.natAbs_neg, Int.natAbs_natCast]
    rfl
  read_negative v rest _ hv := by
    show (readExactly 4 (pad 4 v ++ rest)).map _ = _
    rw [readExactly_pad (Nat.lt_succ_of_le hv)]
    rfl

end TimeFormat

/-! ## Dates and their components -/

namespace FormattedDateTime

def nanosPerDay : ℤ := 86400 * 1000000000

/-- The number of the day of the epoch. -/
def epochDays : ℤ := 719162

def date (self : FormattedDateTime) : Date := .ofDays (self.nanos / nanosPerDay + epochDays)

def year (self : FormattedDateTime) : ℤ := self.date.year

/-- The nanoseconds since midnight. -/
def timeOfDay (self : FormattedDateTime) : ℤ := self.nanos % nanosPerDay

/-- The components of a date, in UTC. -/
def value (self : FormattedDateTime) : Component → ℤ
  | .year => self.date.year
  | .month => self.date.month
  | .day => self.date.day
  | .hour => self.timeOfDay / (3600 * 1000000000)
  | .minute => self.timeOfDay / (60 * 1000000000) % 60
  | .second => self.timeOfDay / 1000000000 % 60
  | .subsecond => self.timeOfDay % 1000000000
  | .offsetHour => 0

/-- `OffsetDateTime::format`: the items in order. -/
def format (lib : TimeFormat) (self : FormattedDateTime) (items : List FormatItem) : List Char :=
  items.flatMap fun item => match item with
    | .literal text => text.toList
    | .component c => lib.print c (self.value c)

/-- The components that have been parsed. -/
abbrev Parsed := Component → Option ℤ

/-- `Parsed::parse_items`: the items in order, each from what the one before it has left. -/
def parseItems (lib : TimeFormat) : List FormatItem → List Char → Parsed →
    Option (Parsed × List Char)
  | [], input, parsed => some (parsed, input)
  | .literal text :: items, input, parsed =>
    if text.toList <+: input then parseItems lib items (input.drop text.toList.length) parsed
    else none
  | .component c :: items, input, parsed => do
    let (value, input) ← lib.read c input
    parseItems lib items input (Function.update parsed c (some value))

/-- The moment with a number of nanoseconds from the epoch, if it is representable. -/
def ofNanos (nanos : ℤ) : Option FormattedDateTime :=
  if h : min ≤ nanos ∧ nanos ≤ max then some ⟨nanos, h.1, h.2⟩ else none

/-- `OffsetDateTime::try_from` the parsed components: a date of the calendar, a time of day and an
offset. Only the subsecond may be missing. -/
def ofParsed (parsed : Parsed) : Option FormattedDateTime := do
  let date ← Date.of? (← parsed .year) (← parsed .month).toNat (← parsed .day).toNat
  let hour ← parsed .hour
  let minute ← parsed .minute
  let second ← parsed .second
  let subsecond := (parsed .subsecond).getD 0
  guard (0 ≤ hour ∧ hour < 24 ∧ 0 ≤ minute ∧ minute < 60 ∧ 0 ≤ second ∧ second < 60 ∧
    0 ≤ subsecond ∧ subsecond < 1000000000)
  let offset ← parsed .offsetHour
  guard (-24 < offset ∧ offset < 24)
  ofNanos ((date.toDays - epochDays) * nanosPerDay +
    ((((hour - offset) * 60 + minute) * 60 + second) * 1000000000 + subsecond))

/-- `OffsetDateTime::parse`: the whole text is parsed. -/
def parse (lib : TimeFormat) (text : String) (items : List FormatItem) :
    Option FormattedDateTime := do
  let (parsed, rest) ← parseItems lib items text.toList fun _ => none
  if rest = [] then ofParsed parsed else none

/-- The text that `serialize` gives to the serializer. Where there is none, the description is
wrong and its `unwrap` panics. -/
def serialize (lib : TimeFormat) (self : FormattedDateTime) : Option String := do
  let format ← lib.describe "[year]-[month]-[day]T[hour]:[minute]:[second].[subsecond]"
  return String.ofList (self.format lib format)

variable {E : Type} (custom : String → E)

/-- `deserialize`, from what `String::deserialize` has given. -/
def deserialize (lib : TimeFormat) (string : Except E String) :
    Option (Except E FormattedDateTime) :=
  match string with
  | .error err => some (.error err)
  | .ok string => do
    let string := string ++ "+00"
    let format ← lib.describe
      "[year]-[month]-[day]T[hour]:[minute]:[second].[subsecond]+[offset_hour]"
    match parse lib string format with
    | some dt => return .ok dt
    | none => return .error (custom "not a valid formatted timestamp")

/-- `deserialize_in_place`, with the place before and after. -/
def deserializeInPlace (lib : TimeFormat) (string : Except E String) (place : FormattedDateTime) :
    Option (Except E Unit × FormattedDateTime) :=
  match string with
  | .error err => some (.error err, place)
  | .ok string => do
    let string := string ++ "+00"
    let format ← lib.describe
      "[year]-[month]-[day]T[hour]:[minute]:[second].[subsecond]+[offset_hour]"
    match parse lib string format with
    | some dt => return (.ok (), dt)
    | none => return (.error (custom "not a valid formatted timestamp"), place)

/-- In place, the date parsed takes the place of the old one, which an error leaves. -/
theorem deserializeInPlace_eq (lib : TimeFormat) (string : Except E String)
    (place : FormattedDateTime) : deserializeInPlace custom lib string place =
      (deserialize custom lib string).map fun r =>
        (r.map fun _ => (), r.toOption.getD place) := by
  unfold deserializeInPlace deserialize
  cases string with
  | error err => rfl
  | ok string =>
    simp only [Option.bind_eq_bind, Option.map_bind]
    congr
    funext format
    simp only [Function.comp_apply]
    cases parse lib (string ++ "+00") format <;> rfl

/-! ## Reading items back -/

variable {lib : TimeFormat} {d : FormattedDateTime}

theorem format_append (items items' : List FormatItem) :
    d.format lib (items ++ items') = d.format lib items ++ d.format lib items' :=
  List.flatMap_append

/-- The component is read back from its text and what follows. -/
def ReadsBack (lib : TimeFormat) (d : FormattedDateTime) (c : Component) (rest : List Char) :
    Prop :=
  lib.read c (lib.print c (d.value c) ++ rest) = some (d.value c, rest)

/-- Every component of the items is read back from the text of the items. -/
def ReadsItems (lib : TimeFormat) (d : FormattedDateTime) : List FormatItem → Prop
  | [] => True
  | .literal _ :: items => ReadsItems lib d items
  | .component c :: items => ReadsBack lib d c (d.format lib items) ∧ ReadsItems lib d items

/-- From the text of the items their components are parsed, and nothing is left over. -/
theorem parseItems_format {items : List FormatItem} (h : ReadsItems lib d items)
    (parsed : Parsed) : ∃ parsed', parseItems lib items (d.format lib items) parsed =
      some (parsed', []) ∧
      ∀ c, parsed' c = if .component c ∈ items then some (d.value c) else parsed c := by
  induction items generalizing parsed with
  | nil => exact ⟨parsed, rfl, fun c => (if_neg List.not_mem_nil).symm⟩
  | cons item items ih =>
    cases item with
    | literal text =>
      obtain ⟨parsed', hparse, hvalue⟩ := ih h parsed
      refine ⟨parsed', ?_, fun c => by simpa using hvalue c⟩
      show (if text.toList <+: text.toList ++ d.format lib items then
        parseItems lib items ((text.toList ++ d.format lib items).drop text.toList.length) parsed
        else none) = _
      rw [if_pos (List.prefix_append _ _), List.drop_left, hparse]
    | component component =>
      obtain ⟨hread, h⟩ := h
      obtain ⟨parsed', hparse, hvalue⟩ :=
        ih h (Function.update parsed component (some (d.value component)))
      refine ⟨parsed', ?_, fun c => ?_⟩
      · show (lib.read component (lib.print component (d.value component) ++
          d.format lib items) >>= fun r => parseItems lib items r.2
          (Function.update parsed component (some r.1))) = _
        rw [hread]
        exact hparse
      · rw [hvalue, Function.update_apply]
        by_cases hc : c = component
        · subst hc
          simp
        · simp [hc]

/-! ## The components of a date -/

theorem timeOfDay_bounds (d : FormattedDateTime) :
    0 ≤ d.timeOfDay ∧ d.timeOfDay < 86400 * 1000000000 := by
  unfold timeOfDay nanosPerDay
  omega

/-- A date is given by its components. -/
theorem ofParsed_value (d : FormattedDateTime) : ofParsed (fun c => some (d.value c)) = some d := by
  obtain ⟨hle, hlt⟩ := d.timeOfDay_bounds
  have hdate : Date.of? (d.value .year) (d.value .month).toNat (d.value .day).toNat =
      some d.date := Date.of?_self d.date
  have htime : (d.date.toDays - epochDays) * nanosPerDay +
      ((((d.value .hour - d.value .offsetHour) * 60 + d.value .minute) * 60 + d.value .second) *
        1000000000 + d.value .subsecond) = d.nanos := by
    unfold date
    rw [Date.toDays_ofDays]
    simp only [value, timeOfDay, nanosPerDay]
    omega
  have hguard : 0 ≤ d.value .hour ∧ d.value .hour < 24 ∧ 0 ≤ d.value .minute ∧
      d.value .minute < 60 ∧ 0 ≤ d.value .second ∧ d.value .second < 60 ∧
      0 ≤ d.value .subsecond ∧ d.value .subsecond < 1000000000 := by
    simp only [value]
    omega
  have hoffset : -24 < d.value .offsetHour ∧ d.value .offsetHour < 24 :=
    show -24 < (0 : ℤ) ∧ (0 : ℤ) < 24 by decide
  have hnanos : ofNanos d.nanos = some d := dif_pos ⟨d.min_le, d.le_max⟩
  unfold ofParsed
  simp only [Option.bind_eq_bind, Option.bind_some, Option.getD_some]
  rw [hdate, Option.bind_some, htime, hnanos]
  unfold guard
  rw [if_pos hguard, if_pos hoffset]
  rfl

theorem exists_nat {n : ℤ} {b : ℕ} (h : 0 ≤ n ∧ n < b) : ∃ v : ℕ, n = v ∧ v < b :=
  ⟨n.toNat, by omega, by omega⟩

/-- The components other than the year have values that are documented. -/
theorem exists_value (d : FormattedDateTime) {c : Component} (hc : c ≠ .year) :
    ∃ v : ℕ, d.value c = v ∧ c.Admits v := by
  obtain ⟨hle, hlt⟩ := d.timeOfDay_bounds
  cases c with
  | year => exact absurd rfl hc
  | month => exact ⟨d.date.month, rfl, d.date.month_pos, d.date.month_le⟩
  | day => exact ⟨d.date.day, rfl, d.date.day_pos, d.date.day_le_31⟩
  | hour =>
    have h : 0 ≤ d.timeOfDay / (3600 * 1000000000) ∧
        d.timeOfDay / (3600 * 1000000000) < (24 : ℕ) := by omega
    exact exists_nat h
  | minute =>
    have h : 0 ≤ d.timeOfDay / (60 * 1000000000) % 60 ∧
        d.timeOfDay / (60 * 1000000000) % 60 < (60 : ℕ) := by omega
    exact exists_nat h
  | second =>
    have h : 0 ≤ d.timeOfDay / 1000000000 % 60 ∧
        d.timeOfDay / 1000000000 % 60 < (60 : ℕ) := by omega
    exact exists_nat h
  | subsecond =>
    have h : 0 ≤ d.timeOfDay % 1000000000 ∧ d.timeOfDay % 1000000000 < (10 ^ 9 : ℕ) := by omega
    exact exists_nat h
  | offsetHour => exact ⟨0, rfl, show 0 < 24 by decide⟩

/-- A component of a fixed width is read back whatever follows it. -/
theorem readsBack_fixed (h : lib.Documented) {c : Component} (hwidth : c.width = some 2)
    (rest : List Char) : ReadsBack lib d c rest := by
  have hc : c ≠ .year := by
    rintro rfl
    cases hwidth
  obtain ⟨v, hv, hadmits⟩ := d.exists_value hc
  unfold ReadsBack
  rw [hv, h.print_fixed c 2 v hwidth hadmits, h.read_fixed c 2 v rest hwidth hadmits]

/-- The subsecond is read back where no digit follows it, whatever its last digits are. -/
theorem readsBack_subsecond (h : lib.Documented) {rest : List Char}
    (hrest : ∀ c ∈ rest.head?, c.isDigit = false) : ReadsBack lib d .subsecond rest := by
  obtain ⟨v, hv, hlt⟩ := d.exists_value (c := .subsecond) (by decide)
  obtain ⟨k, m, hk, hle, hvm, -, hprint⟩ := h.print_subsecond v hlt
  -- the digits printed are as many as the number that is left of the zeros needs
  have hm : m < 10 ^ k := by
    have hpow : 10 ^ 9 = 10 ^ k * 10 ^ (9 - k) := by
      rw [← pow_add, Nat.add_sub_cancel' hle]
    have hlt' : m * 10 ^ (9 - k) < 10 ^ k * 10 ^ (9 - k) := by
      rw [← hvm, ← hpow]
      exact hlt
    exact Nat.lt_of_mul_lt_mul_right hlt'
  unfold ReadsBack
  rw [hv, hprint, h.read_subsecond k m rest hk hle hm hrest, ← hvm]

theorem readsBack_year (h : lib.Documented) (hlo : 0 ≤ d.year) (hhi : d.year ≤ 9999)
    (rest : List Char) : ReadsBack lib d .year rest := by
  obtain ⟨v, hv⟩ := Int.eq_ofNat_of_zero_le hlo
  have hadmits : Component.Admits .year v := show v ≤ 9999 by omega
  have hvalue : d.value .year = v := hv
  unfold ReadsBack
  rw [hvalue, h.print_fixed .year 4 v rfl hadmits, h.read_fixed .year 4 v rest rfl hadmits]

/-- Every representable year is read back where years have signs. -/
theorem readsBack_year_signed (h : lib.Signed) (rest : List Char) :
    ReadsBack lib d .year rest := by
  obtain ⟨hlo, hhi⟩ : -9999 ≤ d.year ∧ d.year ≤ 9999 := by
    have hmin := d.min_le
    have hmax := d.le_max
    have hspec := yearOf_spec (d.nanos / nanosPerDay + epochDays)
    unfold daysBefore nanosPerDay epochDays at hspec
    unfold min at hmin
    unfold max at hmax
    show -9999 ≤ yearOf (d.nanos / (86400 * 1000000000) + 719162) ∧
      yearOf (d.nanos / (86400 * 1000000000) + 719162) ≤ 9999
    generalize yearOf (d.nanos / (86400 * 1000000000) + 719162) = year at hspec ⊢
    omega
  rcases le_or_gt 0 d.year with hpos | hneg
  · exact readsBack_year h.toDocumented hpos hhi rest
  · obtain ⟨v, hv⟩ := Int.eq_ofNat_of_zero_le (a := -d.year) (by omega)
    have hvalue : d.value .year = -(v : ℤ) := by
      show d.year = _
      omega
    unfold ReadsBack
    rw [hvalue, h.print_negative v (by omega) (by omega), h.read_negative v rest (by omega) (by omega)]

/-! ## The round trip -/

/-- The text of a date and `+00` are the text of the description that is parsed. -/
theorem format_deserializeItems (h : lib.Documented) (d : FormattedDateTime) :
    d.format lib deserializeItems = d.format lib serializeItems ++ "+00".toList := by
  have hoffset : lib.print .offsetHour (d.value .offsetHour) = ['0', '0'] :=
    h.print_fixed .offsetHour 2 0 rfl (show 0 < 24 by decide)
  have htail : d.format lib [.literal "+", .component .offsetHour] = "+00".toList := by
    show "+".toList ++ (lib.print .offsetHour (d.value .offsetHour) ++ []) = _
    rw [hoffset]
    rfl
  unfold deserializeItems
  rw [format_append, htail]

theorem readsItems (h : lib.Documented) (hyear : ∀ rest, ReadsBack lib d .year rest) :
    ReadsItems lib d deserializeItems := by
  refine ⟨hyear _, readsBack_fixed h rfl _, readsBack_fixed h rfl _, readsBack_fixed h rfl _,
    readsBack_fixed h rfl _, readsBack_fixed h rfl _, readsBack_subsecond h ?_,
    readsBack_fixed h rfl _, trivial⟩
  -- a plus sign follows the subsecond
  intro c hc
  obtain rfl := Option.some.inj hc
  decide

/-- What is parsed from the text of a date and `+00` is the date. -/
theorem parse_serialize (h : lib.Documented) (hyear : ∀ rest, ReadsBack lib d .year rest) :
    parse lib (String.ofList (d.format lib serializeItems) ++ "+00") deserializeItems = some d := by
  obtain ⟨parsed, hparse, hvalue⟩ := parseItems_format (readsItems h hyear) fun _ => none
  have hall : parsed = fun c => some (d.value c) := by
    funext c
    rw [hvalue, if_pos]
    cases c <;> decide
  have htext : (String.ofList (d.format lib serializeItems) ++ "+00").toList =
      d.format lib deserializeItems := by
    rw [String.toList_append, String.toList_ofList, format_deserializeItems h]
  unfold parse
  rw [htext, hparse]
  rw [Option.bind_eq_bind, Option.bind_some, hall]
  exact (if_pos rfl).trans d.ofParsed_value

/-- A date is deserialised from its text, in place or not, if its year is read back. -/
theorem round_trip (h : lib.Documented) (hyear : ∀ rest, ReadsBack lib d .year rest) :
    ∃ text, serialize lib d = some text ∧
      deserialize custom lib (.ok text) = some (.ok d) ∧
      ∀ place, deserializeInPlace custom lib (.ok text) place = some (.ok (), d) := by
  have htext : serialize lib d = some (String.ofList (d.format lib serializeItems)) := by
    unfold serialize
    rw [h.describe_serialize]
    rfl
  have hdate : deserialize custom lib (.ok (String.ofList (d.format lib serializeItems))) =
      some (.ok d) := by
    unfold deserialize
    simp only [h.describe_deserialize, Option.bind_eq_bind, Option.bind_some,
      parse_serialize h hyear]
    rfl
  refine ⟨_, htext, hdate, fun place => ?_⟩
  rw [deserializeInPlace_eq, hdate]
  rfl

end FormattedDateTime

open FormattedDateTime

/-- Every text that a date is serialised to is deserialised to that date, before the year zero
too. -/
theorem deserialize_serialize {lib : TimeFormat} (h : lib.Signed) {E : Type} (custom : String → E)
    (d : FormattedDateTime) :
    ∃ text, serialize lib d = some text ∧ deserialize custom lib (.ok text) = some (.ok d) := by
  obtain ⟨text, htext, hdate, -⟩ :=
    round_trip custom h.toDocumented (readsBack_year_signed (d := d) h)
  exact ⟨text, htext, hdate⟩

/-- A JSON library that writes the text of a date as a string, and decodes dates from strings,
decodes the dates it writes. -/
theorem decodes_timestamp {T V : Type} {J : Json T V} {lib : TimeFormat} (h : lib.Signed)
    {quote : String → T} {unquote : T → Except SimdJsonError String} (custom : String → SimdJsonError)
    (hquote : ∀ text, unquote (quote text) = .ok text)
    (htext : ∀ d text, serialize lib d = some text → J.text (.timestamp d) = quote text)
    (htimestamp : ∀ t r, deserialize custom lib (unquote t) = some r → J.timestamp t = r)
    (d : FormattedDateTime) : J.timestamp (J.text (.timestamp d)) = .ok d := by
  obtain ⟨text, hserialize, hdate⟩ := deserialize_serialize h custom d
  rw [htext d text hserialize]
  refine htimestamp _ _ ?_
  rw [hquote, hdate]

/-- **Timestamps round trip.** A moment of the years 0 to 9999, to the nanosecond, is what the text
it is serialised to is deserialised to, as a new value and in place. -/
theorem timestamp_round_trip {lib : TimeFormat} (h : lib.Documented) {E : Type}
    (custom : String → E) (d : FormattedDateTime) (hlo : 0 ≤ d.year) (hhi : d.year ≤ 9999) :
    ∃ text, serialize lib d = some text ∧
      deserialize custom lib (.ok text) = some (.ok d) ∧
      ∀ place, deserializeInPlace custom lib (.ok text) place = some (.ok (), d) :=
  round_trip custom h (readsBack_year h hlo hhi)

/-- A moment 120 milliseconds after the epoch is serialised with two digits of its second. -/
example : serialize .standard (.of 120000000) = some "1970-01-01T00:00:00.12" := by decide

/-- The moment 120 milliseconds after the epoch. -/
theorem timestamp_round_trip_zeros : ∃ text, serialize .standard (.of 120000000) = some text ∧
    deserialize id .standard (.ok text) = some (.ok (.of 120000000)) ∧
    ∀ place, deserializeInPlace id .standard (.ok text) place = some (.ok (), .of 120000000) :=
  timestamp_round_trip TimeFormat.standard_documented id (.of 120000000) (by decide) (by decide)

end TwilightDispatch
