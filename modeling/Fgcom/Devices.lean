import Fgcom.Lib.Scanf
import Fgcom.Reports
import Mathlib.Data.List.Nodup

/-! # The audio devices

With `list_audio` the client prints the devices of each direction, and `audio_in` and `audio_out`
select one by its name. Both directions share one table; a device has capability bits.

* **`reportDevices`**, **`setDevice`** — the listing and the selection.
* **`lists_both_iff`** — the direction asked for is tested as a truth value, and both capability
  bits are true: both listings are that of the input devices. What is printed is right when the two
  directions have the same listing.
* **`sameListing_iff`** — when this is so in a table of different names.
* **`selectable_run`** — after any number of selections the selected devices have the capability of
  their direction. -/

namespace Fgcom.Devices

open Printf Reports

/-! ## The code -/

/-- `IAXC_AD_INPUT`. -/
def iaxcAdInput : ℕ := 1

/-- `IAXC_AD_OUTPUT`. -/
def iaxcAdOutput : ℕ := 2

/-- `struct iaxc_audio_device`. -/
structure AudioDevice where
  name : List Char
  capabilities : ℕ
  devID : ℤ
  deriving DecidableEq

/-- The devices selected, by their ids. -/
structure Selection where
  input : ℤ
  output : ℤ
  ring : ℤ
  deriving DecidableEq

/-- `devs[i]`, if there is such a device. -/
def deviceAt (devs : List AudioDevice) (i : ℤ) : Option AudioDevice :=
  if 0 ≤ i then devs[i.toNat]? else none

/-- `"%s\n"` of a name. -/
def nameLine (d : AudioDevice) : List Char := d.name ++ ['\n']

/-- The loop of `report_devices`, from the position `i` on. -/
def reportLoop (flag : ℕ) (current : ℤ) : List AudioDevice → ℕ → List Char → List Char
  | [], _, repBuf => repBuf
  | d :: devs, i, repBuf =>
      let repBuf :=
        if d.capabilities &&& flag ≠ 0 ∧ (i : ℤ) ≠ current then
          repBuf ++ (nameLine d).take (mxReportBuf - repBuf.length - 1)
        else repBuf
      if mxReportBuf ≤ repBuf.length then repBuf else reportLoop flag current devs (i + 1) repBuf

section Code

variable (devs : List AudioDevice) (selection : Selection)

/-- `report_devices`; `none` where the selected device is not in the table. -/
def reportDevices (isIn : ℤ) : Option (List Char) :=
  let flag := if isIn ≠ 0 then iaxcAdInput else iaxcAdOutput
  let current := if isIn ≠ 0 then selection.input else selection.output
  (deviceAt devs current).map fun d =>
    reportLoop flag current devs 0 ((nameLine d).take (mxReportBuf - 1))

/-- What `set_device` returns, the selection it leaves and what it prints. -/
structure SetDevice where
  ret : ℤ
  selection : Selection
  stderr : List Char
  deriving DecidableEq

/-- `set_device`: the first device of the name with the capability. -/
def setDevice (name : List Char) (out : ℤ) : SetDevice :=
  let flag := if out ≠ 0 then iaxcAdOutput else iaxcAdInput
  match devs.find? fun d => d.capabilities &&& flag ≠ 0 ∧ name = d.name with
  | none => ⟨0, selection, []⟩
  | some d =>
      { ret := 1
        selection :=
          if out ≠ 0 then { selection with output := d.devID }
          else { selection with input := d.devID }
        stderr :=
          "device ".toList ++ (if out ≠ 0 then "out".toList else "in".toList) ++ " = ".toList ++
            name ++ " (".toList ++ printInt d.devID ++ ")\n".toList }

end Code

/-! ## What the listings should be -/

/-- The directions. -/
inductive Direction
  | input | output
  deriving DecidableEq

/-- What `main` passes to `report_devices`: the capability bit. -/
def Direction.flag : Direction → ℕ
  | .input => iaxcAdInput
  | .output => iaxcAdOutput

/-- What `main` passes to `set_device`. -/
def Direction.out : Direction → ℤ
  | .input => 0
  | .output => 1

/-- The device selected for a direction. -/
def Selection.current (selection : Selection) : Direction → ℤ
  | .input => selection.input
  | .output => selection.output

/-- A device has the capability of a direction. -/
def AudioDevice.Has (d : AudioDevice) (dir : Direction) : Prop := d.capabilities &&& dir.flag ≠ 0

instance (d : AudioDevice) (dir : Direction) : Decidable (d.Has dir) :=
  inferInstanceAs (Decidable (_ ≠ _))

/-- The devices with the capability, but for the one at a position. -/
def others (dir : Direction) (current : ℤ) (devs : List AudioDevice) (i : ℕ) : List AudioDevice :=
  ((devs.zipIdx i).filter fun x => x.1.Has dir ∧ (x.2 : ℤ) ≠ current).map Prod.fst

/-- The devices to list: the one that is selected, and in the order of the table the others with the
capability. -/
def toList (devs : List AudioDevice) (selection : Selection) (dir : Direction) :
    Option (List AudioDevice) :=
  (deviceAt devs (selection.current dir)).map fun d =>
    d :: others dir (selection.current dir) devs 0

/-- The lines of a list of devices. -/
def listing (ds : List AudioDevice) : List Char := ds.flatMap nameLine

/-- What `iaxc_audio_devices_get` gives: a table in which the ids are the positions, and a selection
for which the names to list fit the report buffer. -/
structure Audio where
  devs : List AudioDevice
  selection : Selection
  devID_eq : ∀ i (h : i < devs.length), devs[i].devID = i
  fits : ∀ dir, ∀ ds ∈ toList devs selection dir, (listing ds).length ≤ mxReportBuf - 1

/-- **The list of a direction is right**: it shows the devices to list, all of which have the
capability and a name that `set_device` accepts for the direction. -/
def Lists (a : Audio) (dir : Direction) : Prop :=
  ∃ ds, toList a.devs a.selection dir = some ds ∧
    reportDevices a.devs a.selection dir.flag = some (listing ds) ∧
    ∀ d ∈ ds, d.Has dir ∧ (setDevice a.devs a.selection d.name dir.out).ret = 1

/-- **The directions cannot be told apart**: the devices selected have the capability of their
direction, and the two lists are the same text. -/
def SameListing (a : Audio) : Prop :=
  ∃ i ∈ deviceAt a.devs a.selection.input, ∃ o ∈ deviceAt a.devs a.selection.output,
    i.Has .input ∧ o.Has .output ∧
      listing (i :: others .input a.selection.input a.devs 0)
        = listing (o :: others .output a.selection.output a.devs 0)

/-! ## The listings there are -/

/-- The others, one device further. -/
theorem others_cons (dir : Direction) (current : ℤ) (d : AudioDevice) (devs : List AudioDevice)
    (i : ℕ) :
    others dir current (d :: devs) i
      = if d.Has dir ∧ (i : ℤ) ≠ current then d :: others dir current devs (i + 1)
        else others dir current devs (i + 1) := by
  unfold others
  rw [List.zipIdx_cons, List.filter_cons]
  simp only [decide_eq_true_eq]
  split <;> rfl

/-- The others have the capability and stand in the table. -/
theorem mem_others {dir : Direction} {current : ℤ} {devs : List AudioDevice} {i : ℕ}
    {d : AudioDevice} (h : d ∈ others dir current devs i) : d.Has dir ∧ d ∈ devs := by
  obtain ⟨⟨x, j⟩, hmem, rfl⟩ := List.mem_map.mp h
  obtain ⟨hzip, hhas⟩ := List.mem_filter.mp hmem
  exact ⟨(of_decide_eq_true hhas).1, (List.fst_mem_of_mem_zipIdx hzip)⟩

/-- **The loop writes the others** behind what is in the buffer, as long as they fit. -/
theorem reportLoop_eq {dir : Direction} {current : ℤ} {devs : List AudioDevice} {i : ℕ}
    {repBuf : List Char}
    (h : (repBuf ++ listing (others dir current devs i)).length ≤ mxReportBuf - 1) :
    reportLoop dir.flag current devs i repBuf
      = repBuf ++ listing (others dir current devs i) := by
  induction devs generalizing i repBuf with
  | nil => exact (List.append_nil repBuf).symm
  | cons d devs ih =>
      have hroom : ¬ mxReportBuf ≤ repBuf.length := by
        rw [List.length_append] at h
        unfold mxReportBuf at *
        omega
      rw [others_cons] at h ⊢
      rw [reportLoop]
      by_cases hd : d.Has dir ∧ (i : ℤ) ≠ current
      · rw [if_pos hd] at h ⊢
        rw [listing, List.flatMap_cons, ← List.append_assoc] at h
        have hline : (nameLine d).take (mxReportBuf - repBuf.length - 1) = nameLine d := by
          rw [List.length_append, List.length_append] at h
          exact List.take_of_length_le (by omega)
        have hroom' : ¬ mxReportBuf ≤ (repBuf ++ nameLine d).length := by
          rw [List.length_append] at h
          unfold mxReportBuf at *
          omega
        simp only [AudioDevice.Has] at hd
        simp only [if_pos hd, hline, if_neg hroom']
        rw [ih h, listing, listing, List.flatMap_cons, List.append_assoc]
      · rw [if_neg hd] at h ⊢
        simp only [AudioDevice.Has] at hd
        simp only [if_neg hd, if_neg hroom]
        exact ih h

variable (a : Audio)

/-- **Both directions get the list of the input devices.** -/
theorem reportDevices_eq (dir : Direction) :
    reportDevices a.devs a.selection dir.flag
      = (toList a.devs a.selection .input).map listing := by
  have hflag : (dir.flag : ℤ) ≠ 0 := by cases dir <;> decide
  unfold reportDevices toList
  simp only [if_pos hflag]
  rw [Option.map_map]
  refine Option.map_congr fun d hd => ?_
  have hfits : (nameLine d ++ listing (others .input a.selection.input a.devs 0)).length
      ≤ mxReportBuf - 1 := a.fits .input _ (Option.mem_map_of_mem _ hd)
  have hline : (nameLine d).take (mxReportBuf - 1) = nameLine d := by
    rw [List.length_append] at hfits
    exact List.take_of_length_le (by omega)
  rw [hline]
  exact reportLoop_eq hfits

/-- A device of the table with the capability is accepted by its name. -/
theorem setDevice_of_mem {dir : Direction} {d : AudioDevice} (hd : d ∈ a.devs) (hhas : d.Has dir) :
    (setDevice a.devs a.selection d.name dir.out).ret = 1 := by
  have hflag : (if dir.out ≠ 0 then iaxcAdOutput else iaxcAdInput) = dir.flag := by
    cases dir <;> rfl
  unfold setDevice
  simp only [hflag]
  split
  next hnone =>
      have hrefused := List.find?_eq_none.mp hnone d hd
      exact absurd (decide_eq_true ⟨hhas, rfl⟩) hrefused
  next => rfl

/-- A device at a position stands in the table. -/
theorem mem_of_deviceAt {devs : List AudioDevice} {i : ℤ} {d : AudioDevice}
    (h : d ∈ deviceAt devs i) : d ∈ devs := by
  unfold deviceAt at h
  split at h
  · exact List.mem_of_getElem? h
  · exact absurd h (by simp)

/-- The devices to list are accepted when the one selected has the capability. -/
theorem accepted_of_has {dir : Direction} {d : AudioDevice}
    (hd : d ∈ deviceAt a.devs (a.selection.current dir)) (hhas : d.Has dir) :
    ∀ e ∈ d :: others dir (a.selection.current dir) a.devs 0,
      e.Has dir ∧ (setDevice a.devs a.selection e.name dir.out).ret = 1 := by
  have hall : ∀ e ∈ d :: others dir (a.selection.current dir) a.devs 0, e.Has dir ∧ e ∈ a.devs :=
    List.forall_mem_cons.mpr ⟨⟨hhas, mem_of_deviceAt hd⟩, fun e he => mem_others he⟩
  exact fun e he => ⟨(hall e he).1, setDevice_of_mem a (hall e he).2 (hall e he).1⟩

/-- **When both listings are right**: the devices selected have the capability of their direction,
and the list of the output devices reads like that of the input devices. -/
theorem lists_both_iff : (∀ dir, Lists a dir) ↔ SameListing a := by
  constructor
  · intro h
    obtain ⟨ins, hins, hinText, hinHas⟩ := h .input
    obtain ⟨outs, houts, houtText, houtHas⟩ := h .output
    rw [reportDevices_eq] at hinText houtText
    have htext : listing ins = listing outs := Option.some.inj (hinText.symm.trans houtText)
    obtain ⟨i, hi, rfl⟩ := Option.map_eq_some_iff.mp hins
    obtain ⟨o, ho, rfl⟩ := Option.map_eq_some_iff.mp houts
    exact ⟨i, hi, o, ho, (hinHas i List.mem_cons_self).1, (houtHas o List.mem_cons_self).1, htext⟩
  · rintro ⟨i, hi, o, ho, hiHas, hoHas, htext⟩
    have hins : toList a.devs a.selection .input = some _ := Option.map_eq_some_iff.mpr ⟨i, hi, rfl⟩
    have houts : toList a.devs a.selection .output = some _ :=
      Option.map_eq_some_iff.mpr ⟨o, ho, rfl⟩
    intro dir
    cases dir with
    | input =>
        refine ⟨_, hins, ?_, accepted_of_has a hi hiHas⟩
        rw [reportDevices_eq, hins]
        rfl
    | output =>
        refine ⟨_, houts, ?_, accepted_of_has a ho hoHas⟩
        rw [reportDevices_eq, hins]
        exact congrArg some htext

/-- A microphone and a pair of loudspeakers, each selected for its direction. -/
def headset : Audio where
  devs := [⟨"Microphone".toList, 1, 0⟩, ⟨"Speakers".toList, 6, 1⟩]
  selection := ⟨0, 1, 1⟩
  devID_eq := by decide
  fits := by
    intro dir
    cases dir <;> decide

/-- The microphone is listed as output, and refused as such. -/
theorem lists_input_as_output :
    reportDevices headset.devs headset.selection Direction.output.flag
        = some "Microphone\n".toList ∧
      (setDevice headset.devs headset.selection "Microphone".toList Direction.output.out).ret = 0 ∧
      ¬ Lists headset .output := by
  refine ⟨by decide, by decide, ?_⟩
  rintro ⟨ds, hds, htext, -⟩
  obtain rfl : [⟨"Speakers".toList, 6, 1⟩] = ds := Option.some.inj hds
  exact absurd htext (by decide)

/-! ## Tables of different names -/

/-- The names of a listing are its lines. -/
theorem splitOn_listing {ds : List AudioDevice} (hds : ∀ d ∈ ds, '\n' ∉ d.name) :
    (listing ds).splitOn '\n' = ds.map AudioDevice.name ++ [[]] := by
  have hlines : ∀ l ∈ ds.map AudioDevice.name, '\n' ∉ l := List.forall_mem_map.mpr hds
  rw [← Record.splitOn_lines hlines, List.flatMap_map]
  rfl

/-- Names on lines of their own can be told apart. -/
theorem names_eq_of_listing_eq {ds es : List AudioDevice} (hds : ∀ d ∈ ds, '\n' ∉ d.name)
    (hes : ∀ e ∈ es, '\n' ∉ e.name) (h : listing ds = listing es) :
    ds.map AudioDevice.name = es.map AudioDevice.name := by
  have hsplit := splitOn_listing hds
  rw [h, splitOn_listing hes] at hsplit
  exact (List.append_cancel_right hsplit).symm

/-- The others by their positions. -/
theorem mem_others_iff {dir : Direction} {current : ℤ} {devs : List AudioDevice} {d : AudioDevice} :
    d ∈ others dir current devs 0 ↔ ∃ j : ℕ, devs[j]? = some d ∧ d.Has dir ∧ (j : ℤ) ≠ current := by
  unfold others
  rw [List.mem_map]
  constructor
  · rintro ⟨⟨x, j⟩, hmem, rfl⟩
    obtain ⟨hzip, hhas⟩ := List.mem_filter.mp hmem
    exact ⟨j, List.mem_zipIdx_iff_getElem?.mp hzip, of_decide_eq_true hhas⟩
  · rintro ⟨j, hj, hhas⟩
    exact ⟨(d, j), List.mem_filter.mpr
      ⟨List.mem_zipIdx_iff_getElem?.mpr hj, decide_eq_true hhas⟩, rfl⟩

/-- Another device than the one selected is listed if it has the capability. -/
theorem mem_others_of_ne {dir : Direction} {current : ℤ} {devs : List AudioDevice}
    {d i : AudioDevice} (hd : d ∈ devs) (hi : i ∈ deviceAt devs current) (hne : d ≠ i)
    (hhas : d.Has dir) : d ∈ others dir current devs 0 := by
  obtain ⟨j, hj⟩ := List.mem_iff_getElem?.mp hd
  refine mem_others_iff.mpr ⟨j, hj, hhas, ?_⟩
  rintro rfl
  have hat : deviceAt devs j = some d := by rw [deviceAt, if_pos (Int.natCast_nonneg j)]; exact hj
  exact hne (Option.some.inj (hat.symm.trans hi))

/-- Different devices stand at one position each. -/
theorem deviceAt_inj {devs : List AudioDevice} (hdevs : devs.Nodup) {i j : ℤ} {d : AudioDevice}
    (hi : d ∈ deviceAt devs i) (hj : d ∈ deviceAt devs j) : i = j := by
  unfold deviceAt at hi hj
  split at hi
  · split at hj
    · have heq := (List.getElem?_inj (List.getElem?_eq_some_iff.mp hi).1 hdevs).mp
        (Eq.trans hi (Eq.symm hj))
      omega
    · exact absurd hj (by simp)
  · exact absurd hi (by simp)

/-- **Different names on one line each**: the listings are right exactly when one device is selected
for both directions and every device has both capabilities or neither. -/
theorem sameListing_iff (hline : ∀ d ∈ a.devs, '\n' ∉ d.name)
    (hnames : (a.devs.map AudioDevice.name).Nodup) :
    SameListing a ↔
      a.selection.input = a.selection.output ∧
        (∃ d ∈ deviceAt a.devs a.selection.input, d.Has .input) ∧
          ∀ d ∈ a.devs, d.Has .input ↔ d.Has .output := by
  have hinj : ∀ d ∈ a.devs, ∀ e ∈ a.devs, d.name = e.name → d = e :=
    fun _ hd _ he => List.inj_on_of_nodup_map hnames hd he
  constructor
  · rintro ⟨i, hi, o, ho, hiHas, hoHas, htext⟩
    have hlines : ∀ dir current, ∀ x ∈ deviceAt a.devs current,
        ∀ d ∈ x :: others dir current a.devs 0, '\n' ∉ d.name := fun dir current x hx =>
      List.forall_mem_cons.mpr
        ⟨hline x (mem_of_deviceAt hx), fun d hd => hline d (mem_others hd).2⟩
    obtain ⟨hname, hothers⟩ := List.cons.inj
      (names_eq_of_listing_eq (hlines _ _ i hi) (hlines _ _ o ho) htext)
    obtain rfl := hinj i (mem_of_deviceAt hi) o (mem_of_deviceAt ho) hname
    -- what is in one list by its name is in the other one itself
    have hmove : ∀ (dir dir' : Direction) (current current' : ℤ),
        (others dir current a.devs 0).map AudioDevice.name
          = (others dir' current' a.devs 0).map AudioDevice.name →
        ∀ d ∈ others dir current a.devs 0, d.Has dir' := by
      intro dir dir' current current' hmap d hd
      obtain ⟨e, he, hde⟩ := List.mem_map.mp (hmap ▸ List.mem_map_of_mem hd)
      obtain rfl := hinj e (mem_others he).2 d (mem_others hd).2 hde
      exact (mem_others he).1
    refine ⟨deviceAt_inj (List.Nodup.of_map _ hnames) hi ho, ⟨i, hi, hiHas⟩, fun d hd => ?_⟩
    by_cases hdi : d = i
    · rw [hdi]
      exact iff_of_true hiHas hoHas
    · exact ⟨fun hhas => hmove _ _ _ _ hothers d (mem_others_of_ne hd hi hdi hhas),
        fun hhas => hmove _ _ _ _ hothers.symm d (mem_others_of_ne hd ho hdi hhas)⟩
  · rintro ⟨hselection, ⟨i, hi, hiHas⟩, hhas⟩
    have hi' : i ∈ deviceAt a.devs a.selection.output := hselection ▸ hi
    have hothers : others .input a.selection.input a.devs 0
        = others .output a.selection.output a.devs 0 := by
      unfold others
      rw [hselection]
      refine congrArg _ (List.filter_congr fun x hx => ?_)
      exact decide_eq_decide.mpr (and_congr_left' (hhas x.1 (List.fst_mem_of_mem_zipIdx hx)))
    exact ⟨i, hi, i, hi', hiHas, (hhas i (mem_of_deviceAt hi)).mp hiHas, by rw [hothers]⟩

/-! ## Runs of selections -/

/-- The devices selected are in the table and have the capability of their direction. -/
def Selectable (devs : List AudioDevice) (selection : Selection) : Prop :=
  ∀ dir, ∃ d ∈ deviceAt devs (selection.current dir), d.Has dir

/-- The device with an id stands at this position. -/
theorem deviceAt_devID {d : AudioDevice} (hd : d ∈ a.devs) : d ∈ deviceAt a.devs d.devID := by
  obtain ⟨i, hi, rfl⟩ := List.mem_iff_getElem.mp hd
  rw [a.devID_eq i hi, deviceAt, if_pos (Int.natCast_nonneg i), Int.toNat_natCast]
  exact List.getElem?_eq_getElem hi

/-- **What `set_device` does**: it leaves the selection, or selects for the direction asked for a
device of this name with the capability, and leaves the other direction. -/
theorem setDevice_cases (selection : Selection) (name : List Char) (dir : Direction) :
    setDevice a.devs selection name dir.out = ⟨0, selection, []⟩ ∨
      (setDevice a.devs selection name dir.out).ret = 1 ∧
      (∃ d ∈ deviceAt a.devs ((setDevice a.devs selection name dir.out).selection.current dir),
        d.Has dir ∧ d.name = name) ∧
      ∀ dir' ≠ dir, (setDevice a.devs selection name dir.out).selection.current dir'
        = selection.current dir' := by
  have hflag : (if dir.out ≠ 0 then iaxcAdOutput else iaxcAdInput) = dir.flag := by
    cases dir <;> rfl
  unfold setDevice
  simp only [hflag]
  split
  next => exact Or.inl rfl
  next d hd =>
      have hfound := List.find?_some hd
      rw [decide_eq_true_eq] at hfound
      obtain ⟨hhas, hname⟩ := hfound
      have hat := deviceAt_devID a (List.mem_of_find?_eq_some hd)
      refine Or.inr ⟨rfl, ⟨d, ?_, hhas, hname.symm⟩, fun dir' hdir => ?_⟩
      · cases dir <;> exact hat
      · cases dir <;> cases dir' <;> first | exact absurd rfl hdir | rfl

/-- A selection by name leaves devices with their capabilities selected. -/
theorem selectable_setDevice {selection : Selection} (h : Selectable a.devs selection)
    (name : List Char) (dir : Direction) :
    Selectable a.devs (setDevice a.devs selection name dir.out).selection := by
  rcases setDevice_cases a selection name dir with hleft | ⟨-, ⟨d, hd, hhas, -⟩, hother⟩
  · rw [hleft]
    exact h
  · intro dir'
    by_cases hdir : dir' = dir
    · rw [hdir]
      exact ⟨d, hd, hhas⟩
    · rw [hother dir' hdir]
      exact h dir'

/-- **After any number of selections** the devices selected have the capability of their
direction. -/
theorem selectable_run {selection : Selection} (h : Selectable a.devs selection)
    (requests : List (List Char × Direction)) :
    Selectable a.devs (requests.foldl
      (fun selection r => (setDevice a.devs selection r.1 r.2.out).selection) selection) := by
  induction requests generalizing selection with
  | nil => exact h
  | cons r requests ih => exact ih (selectable_setDevice a h r.1 r.2)

end Fgcom.Devices
