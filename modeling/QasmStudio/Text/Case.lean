import QasmStudio.Text.Runs

/-!
# Case

The upper, lower and title case of a letter, each one letter again. Most letters with a case are in pairs,
each letter the image of the other; in the tables upper case comes first.
-/

namespace QasmStudio.Text

/-- The pairs of neighbours, as runs in which upper and lower case take turns. -/
def pairedRuns : Runs :=
  [256, 48, 2, 6, 1, 16, 1, 46, 1, 6, 3, 4, 1, 2, 2, 2, 4, 2, 5, 2, 6, 6, 1, 2, 3, 2, 1, 2, 2, 4,
   1, 2, 2, 2, 15, 16, 1, 18, 4, 2, 2, 40, 2, 18, 7, 2, 4, 2, 3, 10, 288, 4, 2, 2, 96, 24, 7, 2,
   1, 2, 100, 34, 8, 54, 1, 14, 1, 96, 5977, 2, 373, 150, 10, 96, 643, 2, 2779, 2, 5, 6, 5, 2, 1,
   2, 9, 100, 7, 4, 3, 2, 31052, 46, 18, 28, 134, 14, 2, 62, 9, 4, 1, 10, 3, 2, 3, 4, 2, 20, 10,
   16, 3, 4, 1, 16, 25, 2]

/-- Runs of upper case and of lower case that lie apart: where they start and how long they are. -/
def parallelRuns : List (Nat × Nat × Nat) :=
  [(65, 97, 26), (192, 224, 23), (216, 248, 7), (376, 255, 1), (385, 595, 1), (390, 596, 1),
   (393, 598, 2), (398, 477, 1), (399, 601, 1), (400, 603, 1), (403, 608, 1), (404, 611, 1),
   (406, 617, 1), (407, 616, 1), (412, 623, 1), (413, 626, 1), (415, 629, 1), (422, 640, 1),
   (425, 643, 1), (430, 648, 1), (433, 650, 2), (439, 658, 1), (452, 454, 1), (455, 457, 1),
   (458, 460, 1), (497, 499, 1), (502, 405, 1), (503, 447, 1), (544, 414, 1), (570, 11365, 1),
   (573, 410, 1), (574, 11366, 1), (579, 384, 1), (580, 649, 1), (581, 652, 1), (895, 1011, 1),
   (902, 940, 1), (904, 941, 3), (908, 972, 1), (910, 973, 2), (913, 945, 17), (931, 963, 9),
   (975, 983, 1), (1017, 1010, 1), (1021, 891, 3), (1024, 1104, 16), (1040, 1072, 32),
   (1216, 1231, 1), (1329, 1377, 38), (4256, 11520, 38), (4295, 11559, 1), (4301, 11565, 1),
   (5024, 43888, 80), (5104, 5112, 6), (7312, 4304, 43), (7357, 4349, 3), (7944, 7936, 8),
   (7960, 7952, 6), (7976, 7968, 8), (7992, 7984, 8), (8008, 8000, 6), (8025, 8017, 1),
   (8027, 8019, 1), (8029, 8021, 1), (8031, 8023, 1), (8040, 8032, 8), (8072, 8064, 8),
   (8088, 8080, 8), (8104, 8096, 8), (8120, 8112, 2), (8122, 8048, 2), (8124, 8115, 1),
   (8136, 8050, 4), (8140, 8131, 1), (8152, 8144, 2), (8154, 8054, 2), (8168, 8160, 2),
   (8170, 8058, 2), (8172, 8165, 1), (8184, 8056, 2), (8186, 8060, 2), (8188, 8179, 1),
   (8498, 8526, 1), (8544, 8560, 16), (9398, 9424, 26), (11264, 11312, 48), (11362, 619, 1),
   (11363, 7549, 1), (11364, 637, 1), (11373, 593, 1), (11374, 625, 1), (11375, 592, 1),
   (11376, 594, 1), (11390, 575, 2), (42877, 7545, 1), (42893, 613, 1), (42922, 614, 1),
   (42923, 604, 1), (42924, 609, 1), (42925, 620, 1), (42926, 618, 1), (42928, 670, 1),
   (42929, 647, 1), (42930, 669, 1), (42931, 43859, 1), (42948, 42900, 1), (42949, 642, 1),
   (42950, 7566, 1), (42955, 612, 1), (42972, 411, 1), (65313, 65345, 26), (66560, 66600, 40),
   (66736, 66776, 36), (66928, 66967, 11), (66940, 66979, 15), (66956, 66995, 7),
   (66964, 67003, 2), (68736, 68800, 51), (68944, 68976, 22), (71840, 71872, 32),
   (93760, 93792, 32), (93856, 93883, 25), (125184, 125218, 34)]

/-- Letters with an upper case whose lower case is another letter. -/
def upperOnly : List (Nat × Nat) :=
  [(181, 924), (305, 73), (383, 83), (453, 452), (456, 455), (459, 458), (498, 497), (837, 921),
   (962, 931), (976, 914), (977, 920), (981, 934), (982, 928), (1008, 922), (1009, 929),
   (1013, 917), (7296, 1042), (7297, 1044), (7298, 1054), (7299, 1057), (7300, 1058),
   (7301, 1058), (7302, 1066), (7303, 1122), (7304, 42570), (7835, 7776), (8126, 921)]

/-- Letters with a lower case whose upper case is another letter. -/
def lowerOnly : List (Nat × Nat) :=
  [(304, 105), (453, 454), (456, 457), (459, 460), (498, 499), (1012, 952), (7838, 223),
   (8486, 969), (8490, 107), (8491, 229)]

def upperCode (n : Nat) : Nat :=
  match upperOnly.lookup n, pairedRuns.place? n with
  | some m, _ => m
  | none, some k => n - k % 2
  | none, none => match parallelRuns.find? fun (_, low, count) => low ≤ n && n < low + count with
    | some (up, low, _) => up + (n - low)
    | none => n

def lowerCode (n : Nat) : Nat :=
  match lowerOnly.lookup n, pairedRuns.place? n with
  | some m, _ => m
  | none, some k => n + 1 - k % 2
  | none, none => match parallelRuns.find? fun (up, _, count) => up ≤ n && n < up + count with
    | some (up, low, _) => low + (n - up)
    | none => n

/-- Letters of two parts have a title case of their own, and one alphabet starts words with its lower
case. -/
def titleCode (n : Nat) : Nat :=
  if 0x1C4 ≤ n && n ≤ 0x1CC then n + 1 - (n - 0x1C4) % 3
  else if 0x1F1 ≤ n && n ≤ 0x1F3 then 0x1F2
  else if 0x10D0 ≤ n && n ≤ 0x10FF then n
  else upperCode n

def toUpper (c : Char) : Char := Char.ofNat (upperCode c.toNat)

def toLower (c : Char) : Char := Char.ofNat (lowerCode c.toNat)

def toTitle (c : Char) : Char := Char.ofNat (titleCode c.toNat)

end QasmStudio.Text
