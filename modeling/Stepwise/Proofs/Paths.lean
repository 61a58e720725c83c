import Mathlib.Data.List.Infix
import Stepwise.Disk

/-!
# Paths after a write

A file can be written where a path leads (`Disk.locate`): there is a file, or there is none but the directory exists. So
the write makes no directory and takes none away (`isDirectory_put`), and every path leads to the same place as before;
what it finds there has changed only at the place of the write (`walk_put`, `follow?_put`). Hence a path that led
elsewhere reads what it read before (`read_put_of_ne`), and one that led there reads what was written
(`read_put_self`).
-/

namespace Stepwise

namespace Found

/-- What a path leads to once there is a file with these contents at a place. -/
def put (place : Place) (contents : ByteArray) : Found → Found
  | directory p => directory p
  | file p old => file p (if p = place then contents else old)
  | absent p => if p = place then file p contents else absent p

/-- Where a file is or can be created. -/
def site? : Found → Option Place
  | directory _ => none
  | file p _ => some p
  | absent p => some p

@[simp] theorem site?_put (place : Place) (contents : ByteArray) (found : Found) :
    (found.put place contents).site? = found.site? := by
  cases found with
  | directory p => rfl
  | file p old => rfl
  | absent p => by_cases h : p = place <;> simp [put, h, site?]

theorem put_of_site? {place : Place} {found : Found} (h : found.site? = some place) (contents : ByteArray) :
    found.put place contents = file place contents := by
  cases found with
  | directory p => cases h
  | file p old =>
    obtain rfl := Option.some.inj h
    simp [put]
  | absent p =>
    obtain rfl := Option.some.inj h
    simp [put]

theorem put_of_site?_ne {place : Place} {found : Found} (h : found.site? ≠ some place) (contents : ByteArray) :
    found.put place contents = found := by
  cases found with
  | directory p => rfl
  | file p old =>
    have hne : p ≠ place := fun heq => h (congrArg some heq)
    simp [put, hne]
  | absent p =>
    have hne : p ≠ place := fun heq => h (congrArg some heq)
    simp [put, hne]

end Found

namespace Disk

variable {d : Disk} {place other directory : Place} {contents bytes : ByteArray} {path : String} {found : Found}

/-! ## Directories -/

theorem isDirectory_iff :
    d.isDirectory place = true ↔ place <+: d.workingDirectory ∨ ∃ f ∈ d.files, place <+: f.1.dropLast := by
  simp [isDirectory]

theorem isDirectory_above (h : d.isDirectory place = true) (hother : other <+: place) :
    d.isDirectory other = true := by
  rcases isDirectory_iff.mp h with hworking | ⟨f, hf, hfile⟩
  · exact isDirectory_iff.mpr (.inl (hother.trans hworking))
  · exact isDirectory_iff.mpr (.inr ⟨f, hf, hother.trans hfile⟩)

theorem isDirectory_origin (d : Disk) (p : Path) : d.isDirectory (d.origin p) = true := by
  unfold origin
  split
  · exact isDirectory_iff.mpr (.inl List.nil_prefix)
  · exact isDirectory_iff.mpr (.inl List.prefix_rfl)

/-- A file written in a directory makes no directory and takes none away. -/
theorem isDirectory_put (h : d.isDirectory place.dropLast = true) (contents : ByteArray) (p : Place) :
    (d.put place contents).isDirectory p = d.isDirectory p := by
  rw [Bool.eq_iff_iff]
  constructor
  · intro hp
    rcases isDirectory_iff.mp hp with hworking | ⟨f, hf, hfile⟩
    · exact isDirectory_iff.mpr (.inl hworking)
    · rcases List.mem_cons.mp hf with rfl | hf
      · exact isDirectory_above h hfile
      · exact isDirectory_iff.mpr (.inr ⟨f, (List.mem_filter.mp hf).1, hfile⟩)
  · intro hp
    rcases isDirectory_iff.mp hp with hworking | ⟨f, hf, hfile⟩
    · exact isDirectory_iff.mpr (.inl hworking)
    · by_cases hplace : f.1 = place
      · exact isDirectory_iff.mpr (.inr ⟨(place, contents), List.mem_cons_self, hplace ▸ hfile⟩)
      · refine isDirectory_iff.mpr (.inr ⟨f, List.mem_cons_of_mem _ ?_, hfile⟩)
        exact List.mem_filter.mpr ⟨hf, by simpa using hplace⟩

/-! ## Paths -/

/-- What a path leads to lies in a directory, unless it is one. -/
theorem isDirectory_of_walk {names : List String} (hdirectory : d.isDirectory directory = true)
    (h : d.walk directory names = .ok found) (hsite : found.site? = some place) :
    d.isDirectory place.dropLast = true := by
  fun_induction d.walk directory names with
  | case1 =>
    cases h
    cases hsite
  | case2 directory rest ih => exact ih hdirectory h
  | case3 directory rest _ ih => exact ih (isDirectory_above hdirectory (List.dropLast_prefix _)) h
  | case4 => cases h
  | case5 directory name rest _ _ _ reached hreached ih => exact ih hreached h
  | case6 directory name _ _ _ reached =>
    cases h
    obtain rfl := Option.some.inj hsite
    simpa [reached] using hdirectory
  | case7 => cases h
  | case8 directory name _ _ _ reached =>
    cases h
    obtain rfl := Option.some.inj hsite
    simpa [reached] using hdirectory
  | case9 => cases h

/-- **A write changes what a path leads to only at the place of the write.** It may change why a path leads nowhere. -/
theorem walk_put (h : d.isDirectory place.dropLast = true) (contents : ByteArray) :
    ∀ (directory : Place) (names : List String), ((d.put place contents).walk directory names).toOption =
      (d.walk directory names).toOption.map (Found.put place contents)
  | directory, [] => rfl
  | directory, name :: rest => by
    simp only [walk, isDirectory_put h]
    split
    · exact walk_put h contents directory rest
    · split
      · exact walk_put h contents directory.dropLast rest
      · split
        · rfl
        · split
          · exact walk_put h contents (directory ++ [name]) rest
          · by_cases hplace : directory ++ [name] = place
            · rw [hplace, contents?_put_self]
              cases d.contents? place <;> by_cases hrest : rest = [] <;> simp [hrest, Except.toOption, Found.put]
            · rw [contents?_put_of_ne d contents hplace]
              cases d.contents? (directory ++ [name]) <;> by_cases hrest : rest = [] <;>
                simp [hrest, hplace, Except.toOption, Found.put]

/-- What a path leads to that does not ask for a directory. -/
def follow? (d : Disk) (path : String) : Option Found :=
  match Path.ofString path with
  | .error _ => none
  | .ok p => if p.endsInSlash then none else (d.walk (d.origin p) p.names).toOption

theorem follow?_put (h : d.isDirectory place.dropLast = true) (contents : ByteArray) (path : String) :
    (d.put place contents).follow? path = (d.follow? path).map (Found.put place contents) := by
  unfold follow?
  split
  · rfl
  · rename_i p hp
    split
    · rfl
    · exact walk_put h contents (d.origin p) p.names

theorem read_eq_ok_iff : d.read path = .ok bytes ↔ ∃ place, d.follow? path = some (.file place bytes) := by
  unfold read follow?
  cases Path.ofString path with
  | error e => simp
  | ok p =>
    cases hwalk : d.walk (d.origin p) p.names with
    | error e => simp [hwalk, Except.toOption]
    | ok found => cases found <;> cases hslash : p.endsInSlash <;> simp [hwalk, hslash, Except.toOption]

theorem locate_eq_ok_iff :
    d.locate path = .ok place ↔ ∃ found, d.follow? path = some found ∧ found.site? = some place := by
  unfold locate follow?
  cases Path.ofString path with
  | error e => simp
  | ok p =>
    cases hslash : p.endsInSlash with
    | true =>
      cases hwalk : d.walk (d.origin p) p.names.dropLast with
      | error e => simp [hslash, hwalk]
      | ok found => cases found <;> simp [hslash, hwalk]
    | false =>
      cases hwalk : d.walk (d.origin p) p.names with
      | error e => simp [hslash, hwalk, Except.toOption]
      | ok found => cases found <;> simp [hslash, hwalk, Except.toOption, Found.site?]

/-! ## Reading and writing -/

theorem isDirectory_of_locate (h : d.locate path = .ok place) : d.isDirectory place.dropLast = true := by
  obtain ⟨found, hfollow, hsite⟩ := locate_eq_ok_iff.mp h
  unfold follow? at hfollow
  split at hfollow
  · cases hfollow
  · rename_i p hp
    split at hfollow
    · cases hfollow
    · cases hwalk : d.walk (d.origin p) p.names with
      | error e => simp [hwalk, Except.toOption] at hfollow
      | ok found' =>
        obtain rfl : found' = found := by simpa [hwalk, Except.toOption] using hfollow
        exact isDirectory_of_walk (isDirectory_origin d p) hwalk hsite

theorem locate_put (h : d.isDirectory place.dropLast = true) (contents : ByteArray) (path : String) :
    (d.put place contents).locate path = .ok other ↔ d.locate path = .ok other := by
  rw [locate_eq_ok_iff, locate_eq_ok_iff, follow?_put h]
  constructor
  · rintro ⟨found, hfollow, hsite⟩
    obtain ⟨found', hfound, rfl⟩ := Option.map_eq_some_iff.mp hfollow
    exact ⟨found', hfound, by simpa using hsite⟩
  · rintro ⟨found, hfollow, hsite⟩
    exact ⟨found.put place contents, by rw [hfollow]; rfl, by simpa using hsite⟩

/-- A path that leads to the place of the write reads what was written. -/
theorem read_put_self (h : d.locate path = .ok place) (contents : ByteArray) :
    (d.put place contents).read path = .ok contents := by
  obtain ⟨found, hfollow, hsite⟩ := locate_eq_ok_iff.mp h
  refine read_eq_ok_iff.mpr ⟨place, ?_⟩
  rw [follow?_put (isDirectory_of_locate h), hfollow, Option.map_some, Found.put_of_site? hsite]

/-- **A path that does not lead there reads what it read before.** -/
theorem read_put_of_ne (h : d.isDirectory place.dropLast = true) (hne : d.locate path ≠ .ok place) :
    (d.put place contents).read path = .ok bytes ↔ d.read path = .ok bytes := by
  rw [read_eq_ok_iff, read_eq_ok_iff, follow?_put h]
  cases hfollow : d.follow? path with
  | none => rfl
  | some found =>
    have hsite : found.site? ≠ some place := fun hsite => hne (locate_eq_ok_iff.mpr ⟨found, hfollow, hsite⟩)
    rw [Option.map_some, Found.put_of_site?_ne hsite]

end Disk

end Stepwise
