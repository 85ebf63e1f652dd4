import Roomsync.App.PipelineBridge
/-!
# Room codes

The room code as `App.tsx` takes it from its input and hands it to `start_pipeline`.  The
page counts UTF-16 units, the bridge cuts the code after two bytes of UTF-8.
-/

namespace Roomsync.App

open Roomsync.Lib

/-! ## From the input to the command -/

/-- The code units of a string of the page. -/
abbrev JsString := List UInt16

def isHighSurrogate (u : UInt16) : Bool := 0xD800 ≤ u && u < 0xDC00
def isLowSurrogate (u : UInt16) : Bool := 0xDC00 ≤ u && u < 0xE000

def ofSurrogates (high low : UInt16) : Char :=
  Char.ofNat (0x10000 + (high.toNat - 0xD800) * 0x400 + (low.toNat - 0xDC00))

/-- The string as the backend gets it; `none` if a surrogate stands alone. -/
def JsString.decode : JsString → Option (List Char)
  | [] => some []
  | [u] => if isHighSurrogate u || isLowSurrogate u then none else some [Char.ofNat u.toNat]
  | u :: v :: rest =>
      if isHighSurrogate u then
        if isLowSurrogate v then (JsString.decode rest).map (ofSurrogates u v :: ·) else none
      else if isLowSurrogate u then none
      else (JsString.decode (v :: rest)).map (Char.ofNat u.toNat :: ·)

/-- `setRoomCode(e.target.value.slice(0, 8))`. -/
def setRoomCode (value : JsString) : JsString := value.take 8

/-- What `handleJoin` invokes, if anything. -/
def handleJoin (toUpperCase : JsString → JsString) (gpuEnabled e2eEnabled : Bool)
    (roomCode : JsString) : Option Command :=
  if roomCode.length < 4 then none
  else do
    let code ← (toUpperCase roomCode).decode
    return .startPipeline (String.ofList code) gpuEnabled e2eEnabled

/-! ## Where the code is cut -/

/-- A character ends after the second byte, or the string does before it. -/
def EndsAtTwo : List Char → Prop
  | [] => True
  | [c] => c.utf8Size ≤ 2
  | c :: d :: _ => c.utf8Size = 2 ∨ c.utf8Size = 1 ∧ d.utf8Size = 1

theorem bytePrefix_zero (cs : List Char) : bytePrefix 0 cs = some [] := by
  cases cs <;> rfl

theorem bytePrefix_nil (n : ℕ) : bytePrefix n [] = some [] := by
  cases n <;> rfl

theorem bytePrefix_cons_ne_none_iff (n : ℕ) (c : Char) (cs : List Char) :
    bytePrefix (n + 1) (c :: cs) ≠ none ↔
      c.utf8Size ≤ n + 1 ∧ bytePrefix (n + 1 - c.utf8Size) cs ≠ none := by
  have hcut : bytePrefix (n + 1) (c :: cs) = if c.utf8Size ≤ n + 1 then
      (bytePrefix (n + 1 - c.utf8Size) cs).map (c :: ·) else none := rfl
  rw [hcut]
  by_cases hfits : c.utf8Size ≤ n + 1
  · simp [hfits]
  · simp [hfits]

theorem bytePrefix_two_ne_none_iff (code : List Char) :
    bytePrefix 2 code ≠ none ↔ EndsAtTwo code := by
  cases code with
  | nil => exact iff_of_true (by simp [bytePrefix_nil]) trivial
  | cons c cs =>
      have hpos := c.utf8Size_pos
      rw [bytePrefix_cons_ne_none_iff]
      rcases Nat.lt_trichotomy c.utf8Size 2 with hone | htwo | hmore
      · have hsize : c.utf8Size = 1 := by omega
        rw [hsize]
        cases cs with
        | nil => simp [EndsAtTwo, hsize, bytePrefix_nil]
        | cons d ds =>
            have hdpos := d.utf8Size_pos
            rw [bytePrefix_cons_ne_none_iff]
            unfold EndsAtTwo
            constructor
            · rintro ⟨-, hd, -⟩
              exact .inr ⟨hsize, by omega⟩
            · rintro (htwo | ⟨-, hd⟩)
              · omega
              · rw [hd]
                exact ⟨by omega, by omega, by simp [bytePrefix_zero]⟩
      · rw [htwo, Nat.sub_self, bytePrefix_zero]
        cases cs <;> simp [EndsAtTwo, htwo]
      · have hlong : ¬ c.utf8Size ≤ 1 + 1 := by omega
        cases cs with
        | nil => simp [EndsAtTwo, hlong]
        | cons d ds =>
            unfold EndsAtTwo
            omega

theorem startBridge_ne_none_iff (roomCode : String) (useGpu : Bool) :
    startBridge roomCode useGpu ≠ none ↔ EndsAtTwo roomCode.toList := by
  rw [← bytePrefix_two_ne_none_iff]
  unfold startBridge
  cases bytePrefix 2 roomCode.toList <;> simp

theorem execute_startPipeline_ne_panicked_iff (app : AppState) (roomCode : String)
    (useGpu useE2e : Bool) :
    (app.execute (.startPipeline roomCode useGpu useE2e)).1 ≠ .panicked ↔
      startBridge roomCode useGpu ≠ none := by
  unfold AppState.execute
  cases hstart : startBridge roomCode useGpu <;> simp [hstart]

/-- What the page submits does not make `start_pipeline` panic exactly when the code, in
upper case, has a boundary after its first two bytes. -/
theorem join_returns_iff (toUpperCase : JsString → JsString) (gpuEnabled e2eEnabled : Bool)
    (value : JsString) (app : AppState) {command : Command}
    (hjoin : handleJoin toUpperCase gpuEnabled e2eEnabled (setRoomCode value) = some command) :
    (app.execute command).1 ≠ .panicked ↔
      ∃ code, (toUpperCase (setRoomCode value)).decode = some code ∧ EndsAtTwo code := by
  unfold handleJoin at hjoin
  split at hjoin
  · exact absurd hjoin (by simp)
  · obtain ⟨code, hcode, hcommand⟩ := Option.bind_eq_some_iff.mp hjoin
    rw [← Option.some.inj hcommand, execute_startPipeline_ne_panicked_iff,
      startBridge_ne_none_iff, String.toList_ofList, hcode]
    simp

def asciiUpperCase (s : JsString) : JsString :=
  s.map fun u => if 97 ≤ u && u ≤ 122 then u - 32 else u

/-- Four euro signs. -/
theorem euro_code_panics :
    ¬ ∀ command, handleJoin asciiUpperCase true true
        (setRoomCode [0x20AC, 0x20AC, 0x20AC, 0x20AC]) = some command →
      (AppState.new.execute command).1 ≠ .panicked := by
  intro hreturns
  have hreturn := hreturns (.startPipeline (String.ofList ['€', '€', '€', '€']) true true) rfl
  rw [execute_startPipeline_ne_panicked_iff, startBridge_ne_none_iff,
    String.toList_ofList] at hreturn
  unfold EndsAtTwo at hreturn
  exact absurd hreturn (by decide)

theorem join_returns_iff_ascii :
    (AppState.new.execute (.startPipeline (String.ofList ['A', 'B', 'C', '1']) false true)).1 ≠
        .panicked ↔
      ∃ code, (asciiUpperCase (setRoomCode [97, 98, 99, 49])).decode = some code ∧
        EndsAtTwo code :=
  join_returns_iff asciiUpperCase false true [97, 98, 99, 49] AppState.new rfl

end Roomsync.App
