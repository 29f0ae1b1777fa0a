import Pep9.Text.Ranges

/-
  The simple upper-case mapping of Unicode 15.0, which
  sends each character to one character.

  Key definitions: `UpperRun`, `upperChar`, `upper`.
-/

namespace Pep9

namespace Text

/-
  The characters `first`, `first + step`, ... up to `last`
  have the upper-case forms `target`, `target + step`, ...
-/
structure UpperRun where
  first : Nat
  last : Nat
  step : Nat
  target : Nat

/- The upper-case form of `n`, when the run gives one. -/
def UpperRun.find? (run : UpperRun) (n : Nat) : Option Nat :=
  if run.first ≤ n && n ≤ run.last && (n - run.first) % run.step == 0 then
    some (run.target + (n - run.first))
  else
    none

/-
  The runs between the ends in a list, in which capitals and
  small letters take turns.
-/
def alternating : List Nat → List UpperRun
  | first :: last :: rest => ⟨first, last, 2, first - 1⟩ :: alternating rest
  | _ => []

/- Small letters whose capitals stand right before them. -/
def capitalsBefore : List UpperRun :=
  alternating (rangeEnds 0 [257, 46, 4, 4, 3, 14, 3, 44, 3, 4, 5, 2, 3, 0, 4, 0, 6, 0, 7, 0, 8,
    4, 3, 0, 5, 0, 3, 0, 4, 2, 3, 0, 4, 0, 8, 0, 3, 0, 3, 0, 3, 14, 3, 16, 3, 0, 3, 0, 4, 38, 4,
    16, 9, 0, 6, 0, 5, 8, 290, 2, 4, 0, 98, 22, 9, 0, 3, 0, 102, 32, 10, 52, 3, 12, 3, 94, 6354,
    148, 12, 94, 645, 0, 2781, 0, 7, 4, 7, 0, 3, 0, 11, 98, 9, 2, 5, 0, 31054, 44, 20, 26, 136,
    12, 4, 60, 11, 2, 3, 8, 5, 0, 5, 2, 4, 18, 12, 14, 5, 2, 7, 0, 6, 2, 29, 0])

/- The ends of runs of small letters, and the first capital. -/
def shiftedRuns : List (Nat × Nat × Nat) :=
  [(97, 122, 65), (224, 246, 192), (248, 254, 216), (575, 576, 11390), (598, 599, 393),
    (650, 651, 433), (891, 893, 1021), (941, 943, 904), (945, 961, 913), (963, 971, 931),
    (973, 974, 910), (1072, 1103, 1040), (1104, 1119, 1024), (1377, 1414, 1329),
    (4304, 4346, 7312), (4349, 4351, 7357), (5112, 5117, 5104), (7299, 7300, 1057),
    (7936, 7943, 7944), (7952, 7957, 7960), (7968, 7975, 7976), (7984, 7991, 7992),
    (8000, 8005, 8008), (8032, 8039, 8040), (8048, 8049, 8122), (8050, 8053, 8136),
    (8054, 8055, 8154), (8056, 8057, 8184), (8058, 8059, 8170), (8060, 8061, 8186),
    (8064, 8071, 8072), (8080, 8087, 8088), (8096, 8103, 8104), (8112, 8113, 8120),
    (8144, 8145, 8152), (8160, 8161, 8168), (8560, 8575, 8544), (9424, 9449, 9398),
    (11312, 11359, 11264), (11520, 11557, 4256), (43888, 43967, 5024), (65345, 65370, 65313),
    (66600, 66639, 66560), (66776, 66811, 66736), (66967, 66977, 66928), (66979, 66993, 66940),
    (66995, 67001, 66956), (67003, 67004, 66964), (68800, 68850, 68736), (71872, 71903, 71840),
    (93792, 93823, 93760), (125218, 125251, 125184)]

/- Letters that are in no run, each with its capital. -/
def lettersApart : List (Nat × Nat) :=
  [(181, 924), (255, 376), (305, 73), (383, 83), (384, 579), (405, 502), (410, 573), (414, 544),
    (447, 503), (454, 452), (457, 455), (460, 458), (477, 398), (499, 497), (592, 11375),
    (593, 11373), (594, 11376), (595, 385), (596, 390), (601, 399), (603, 400), (604, 42923),
    (608, 403), (609, 42924), (611, 404), (613, 42893), (614, 42922), (616, 407), (617, 406),
    (618, 42926), (619, 11362), (620, 42925), (623, 412), (625, 11374), (626, 413), (629, 415),
    (637, 11364), (640, 422), (642, 42949), (643, 425), (647, 42929), (648, 430), (649, 580),
    (652, 581), (658, 439), (669, 42930), (670, 42928), (837, 921), (940, 902), (962, 931),
    (972, 908), (976, 914), (977, 920), (981, 934), (982, 928), (983, 975), (1008, 922),
    (1009, 929), (1010, 1017), (1011, 895), (1013, 917), (1231, 1216), (7296, 1042),
    (7297, 1044), (7298, 1054), (7301, 1058), (7302, 1066), (7303, 1122), (7304, 42570),
    (7545, 42877), (7549, 11363), (7566, 42950), (7835, 7776), (8017, 8025), (8019, 8027),
    (8021, 8029), (8023, 8031), (8115, 8124), (8126, 921), (8131, 8140), (8165, 8172),
    (8179, 8188), (8526, 8498), (11365, 570), (11366, 574), (11559, 4295), (11565, 4301),
    (42900, 42948), (43859, 42931)]

/- All characters with an upper-case form of their own. -/
def upperRuns : List UpperRun :=
  shiftedRuns.map (fun (first, last, target) => ⟨first, last, 1, target⟩)
    ++ capitalsBefore
    ++ lettersApart.map (fun (letter, target) => ⟨letter, letter, 1, target⟩)

/-
  The upper-case form of a character; a character without
  one is its own.
-/
def upperChar (c : Char) : Char :=
  match upperRuns.findSome? (·.find? c.toNat) with
  | some n => Char.ofNat n
  | none => c

/- The upper-case form of a text, character by character. -/
def upper (s : String) : String :=
  s.map upperChar

end Text

end Pep9
