import Parlance.Text.Ranges
/-!
Characters that leave a mark when printed: letters, marks, numbers, punctuation and symbols.
-/
namespace Parlance.Text

def graphicRanges : Ranges := .ofText
  ["21-5d 23-b 2-2c9 3-5 5-6 2 2-13 2-18c 2-25 3-31 3-2 2-36 9-1a 5-5 12-15 2-bf 2-2f 3-3a 3-64 f-3a",
   "3-30 3-e 2-1b 3 2-a 6-1e a-49 2-a0 2-7 3-1 3-15 2-6 2 4-3 3-8 3-1 3-3 9 5-1 2-4 3-18 3-2 2-5 5-1",
   "3-15 2-6 2-1 2-1 2-1 3 2-4 5-1 3-2 4 8-3 2 8-10 b-2 2-8 2-2 2-15 2-6 2-1 2-4 3-9 2-2 2-2 3 10-3",
   "3-b 8-6 2-2 2-7 3-1 3-15 2-6 2-1 2-4 3-8 3-1 3-2 8-2 5-1 2-4 3-11 b-1 2-5 4-2 2-3 4-1 2 2-1 4-1",
   "4-2 4-b 5-4 4-2 2-3 3 7 f-14 6-c 2-2 2-16 2-f 3-8 2-2 2-3 8-1 2-2 3 3-3 3-9 8-15 2-2 2-16 2-9",
   "2-4 3-8 2-2 2-3 8-1 7-1 2-3 3-9 2-2 d-c 2-2 2-32 2-2 2-5 5-f 3-19 2-2 2-11 4-17 2-8 2 3-6 4 5-5",
   "2 2-7 7-9 3-2 d-39 5-1c 26-1 2 2-4 2-17 2 2-16 3-4 2 2-6 2-9 3-3 21-47 2-23 5-26 2-23 2-e 2-c",
   "26-c5 2 6 3-178 2-3 3-6 2 2-3 3-28 2-3 3-20 2-3 3-6 2 2-3 3-e 2-38 2-3 3-42 3-1f 4-19 7-55 3-5",
   "3-27f 2-1b 4-58 8-15 a-17 a-13 d-c 2-2 2-1 d-5d 3-9 7-9 7-d 2-a 7-58 8-2a 6-45 b-1e 2-b 5-b 5",
   "4-29 3-4 c-2b 5-19 7-a 4-3d 3-40 2-1c 3-a 7-9 7-d 3-1e 32-4c 4-2e 2-73 9-3b 4-e 4-3b 8-2a 3-a",
   "9-2a 6-215 3-5 3-25 3-5 3-7 2 2 2 2-1e 3-34 2-e 2-d 3-5 2-12 3-2 2-8 12-17 9-2e 12-1 3-1a 2-c",
   "4-20 10-20 10-8b 5-296 1a-a 16-713 3-1f 2-15c 6-2c 2 6 3-37 8-1 f-17 a-6 2-6 2-6 2-6 2-6 2-6 2-6",
   "2-6 2-7d 23-19 2-58 d-d5 1b-b 6-3e 2-55 3-66 6-2a 2-5d 2-53 d-2e 2-726c 4-36 a-15b 15-b7 9-ca",
   "6-1 2 2-4 19-3a 4-9 7-37 9-45 9-b 7-73 c-1d 4-4d 2-a 5-20 2-36 a-d 3-9 3-66 19-1b b-5 3-5 3-5",
   "a-6 2-6 2-3b 5-7d 3-9 7-2ba3 d-16 5-30 2105-16d 3-69 27-6 d-4 6-19 2-4 2 2-1 2-1 2-7c 11-1bc",
   "3-35 8 21-29 7-32 2-12 2-3 5-4 2-86 5-bd 4-5 3-5 3-5 3-2 4-6 2-6 e-1 3-b 2-19 2-12 2-1 2-e 3-d",
   "23-7a 6-2 5-2c 4-57 2-c 4 30-2d 83-1c 4-30 10-1b 5-23 a-1d 6-2a 6-1d 2-24 5-d 2b-9d 3-9 7-23",
   "5-23 5-27 9-33 c-b 2-e 2-6 2-1 2-a 2-e 2-6 2-1 44-136 a-15 b-7 19-5 2-29 2-8 46-5 3 2-2b 2-1 4",
   "3-16 2-47 9-8 31-12 2-1 6-20 4-1a 6 41-37 5-13 3-31 2-1 6-7 2-2 2-1c 3-2 5-9 8-8 8-3f 21-26 5-b",
   "a-35 4-1c 3-1a 6-19 8-3 d-6 51-48 38-32 e-32 8-2d 9-9 127-1e 2-29 2-2 3-1 4c-2a 9-29 17-19 27-1b",
   "15-16 a-4d 5-23 a-3d 2-4 e-18 8-9 7-34 2-11 9-26 a-5f 2-13 c-11 2-2e 3f-6 2 2-3 2-e 2-a 7-3a 6-9",
   "7-3 2-7 3-1 3-15 2-6 2-1 2-4 2-9 3-1 3-2 3 7 6-6 3-6 4-4 8c-5b 2-4 1f-47 9-9 a7-35 3-25 23-44",
   "c-9 7-c 14-39 7-9 37-1a 3-e 5-16 ba-3b 65-52 d-7 3 3-7 2-1 2-1d 2-1 3-b a-9 47-7 3-2d 3-a 1c-47",
   "9-52 e-48 8-9 f7-8 2-2c 2-d b-1c 4-1f 3-15 2-d 4a-6 2-1 2-2b 4 2-1 2-8 9-9 7-5 2-1 2-24 2-1 2-5",
   "8-9 137-18 8-10 2-28 4-1b 57 10-31 e-39a 67-6e 2-4 c-c3 a4d-62 e-42f 11-15 fab-246 21ba-238 8-1e",
   "2-9 5-50 2-9 7-1d 3-5 b-45 b-9 2-6 2-14 6-12 2b1-5a 66-4a 5-38 8-10 41-4 c-1 f-17f7 9-4d5 2b-8",
   "22e8-3 2-6 2-1 2-122 10 1e-2 3 f-3 9-18b 905-6a 6-c 4-8 8-9 3-3 1261-2d 3-16 a-73 3d-f5 b-26",
   "3-49 9-6f 16-45 7b-13 d-13 d-56 a-18 88-54 2-46 2-1 3 3-1 3-3 2-b 2 2-6 2-40 2-3 3-7 2-6 2-1b",
   "2-3 2-4 2 4-6 2-153 3-123 3-2bd 10-4 2-e 451-1e 7-5 d6-6 2-10 3-6 2-1 2-4 6-3d 22 71-2c 4-d 3-9",
   "5-1 141-1e 12-39 6 1d1-29 2e7-6 2-3 2-1 2-e 2-c4 3-f 2a-4b 5-9 5-1 312-43 4d-3c c3-3 2-1a 2-1 2",
   "3 2-9 2-3 2 2 7 5 2 2 2-2 2-1 2 3 2 2 2 2 2-1 2 3-3 2-6 2-3 2-3 2 2-9 2-10 6-2 2-4 2-10 35-1",
   "10f-2b 5-63 d-e 3-e 2-e 2-24 b-ad 39-1c e-2b 5-8 8-1 f-5 9b-3d7 5-10 4-c 4-76 5-5e 7-b 5 10-b",
   "5-37 9-9 7-27 9-1d 3-1 4f-153 d-d 3-c 4-8 8-2d 2-6 9-d 5-8 8-8 8-92 2-36 26-9 407-a6df 21-1039",
   "7-dd 3-1681 f-1d30 c20-21d 5e3-134a 6-105f add51-ef"]

def isPrintable (c : Char) : Bool :=
  if c.toNat < 0x7f then 0x20 ≤ c.toNat else graphicRanges.contains c

end Parlance.Text
