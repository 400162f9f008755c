import Lineage.Text.CharSet

/-!
How identifiers are brought to one form (compatibility composition of Unicode 14, for the characters
that may stand in identifiers). A table is a list of lines of entries that end in semicolons; an
entry is a list of numbers in base thirty-six.
-/

namespace Lineage.Text

/-- What code points stand for, one behind the other. An empty entry is the same as the one before,
and a one is the same with the first letter in lower case. An entry of a code point and zero tells
for which one the next entry is; one of two code points around a zero stands for an entry for each
from the first to the last. -/
def decompositionTable : List String :=
  ["4q 0;2p;51 0;qk;56 0;33;5c 0;1t lc;1t ld;1t le;1t lf;1t lk;1t lm;5j 0;1v mf;1x lc;1x ld;1x le;",
   "1x lk;21 lc;21 ld;21 le;21 lk;5t 0;26 lf;27 lc;27 ld;27 le;27 lf;27 lk;61 0;2d lc;2d ld;2d le;",
   "2d lk;2h ld;68 0;2p lc;2p ld;2p le;2p lf;2p lk;2p lm;6f 0;2r mf;2t lc;2t ld;2t le;2t lk;2x lc;",
   "2x ld;2x le;2x lk;6p 0;32 lf;33 lc;33 ld;33 le;33 lf;33 lk;6x 0;39 lc;39 ld;39 le;39 lk;3d ld;",
   "73 0;3d lk;1t lg;1;1t li;1;1t mg;1;1v ld;1;1v le;1;1v lj;1;1v lo;1;1w lo;1;7m 0;1x lg;1;1x li;",
   "1;1x lj;1;1x mg;1;1x lo;1;1z le;1;1z li;1;1z lj;1;1z mf;1;20 le;1;88 0;21 lf;1;21 lg;1;21 li;",
   "1;21 mg;1;21 lj;8i 0;21 22;2x 2y;22 le;1;23 mf;1;8p 0;24 ld;1;24 mf;1;24 lo;1;24 53;1;8z 0;",
   "26 ld;1;26 mf;1;26 lo;1;jg 32;98 0;27 lg;1;27 li;1;27 ln;1;9g 0;2a ld;1;2a mf;1;2a lo;1;2b ld;",
   "1;2b le;1;2b mf;1;2b lo;1;2c mf;1;2c lo;1;a0 0;2d lf;1;2d lg;1;2d li;1;2d lm;1;2d ln;1;2d mg;",
   "1;2f le;1;2h le;1;2h lk;2i ld;1;2i lj;1;2i lo;1;37;bk 0;27 m3;1;bz 0;2d m3;1;ck 0;1w 2i lo;",
   "1w 3e lo;1;24 22;24 2y;1;26 22;26 2y;1;1t lo;1;21 lo;1;27 lo;1;2d lo;1;2d lk lg;1;2d lk ld;1;",
   "2d lk lo;1;2d lk lc;1;da 0;1t lk lg;1;1t lj lg;1;5i lg;1;di 0;1z lo;1;23 lo;1;27 mg;1;",
   "27 mg lg;1;c7 lo;ia lo;2y lo;1w 2i;1w 3e;1;1z ld;1;e0 0;26 lc;1;1t lm ld;1;5i ld;1;60 ld;1;",
   "1t lr;1;1t lt;1;1x lr;1;1x lt;1;21 lr;1;21 lt;1;27 lr;1;27 lt;1;2a lr;1;2a lt;1;2d lr;1;2d lt;",
   "1;2b me;1;2c me;1;f2 0;20 lo;1;fa 0;1t lj;1;1x mf;1;27 lk lg;1;27 lf lg;1;27 lj;1;27 lj lg;1;",
   "2h lg;1;j4 0;2w;h2;2y;36;hl;hn;ht;3b;3d;kg 0;gz;30;37;3c;id;n4 0;lc;ld;n7 0;lv;lk ld;ok 0;jd;",
   "p2 0;pd ld;53;ph ld;pj ld;pl ld;p8 0;pr ld;pa 0;px ld;q1 ld;qh lk ld;q2 0;pl lk;px lk;q9 ld;",
   "qd ld;qf ld;qh ld;qt lk ld;qy 0;qh lk;qt lk;qn ld;qt ld;qx ld;r4 0;qa;qg;px;px ld;px lk;qu;qo;",
   "s0 0;qi;qp;qq;s4 0;pk;qd;s9 0;pv;sg 0;t1 lc;t1 lk;sj 0;sz ld;sn 0;sm lk;ss 0;t6 ld;t4 lc;",
   "tf li;t5 0;t4 li;u1 0;1;uo 0;tx lc;tx lk;ur 0;tv ld;uv 0;uu lk;v0 0;u2 ld;u0 lc;ub li;vq 0;",
   "vo lr;vp lr;xt 0;t2 li;1;y8 0;sw li;1;sw lk;1;ye 0;t1 li;1;yi 0;yg lk;yh lk;t2 lk;1;t3 lk;1;",
   "yq 0;t4 lg;1;t4 lk;1;ta lk;1;yy 0;yw lk;yx lk;tp lk;1;tf lg;1;tf lk;1;tf ln;1;tj lk;1;zc 0;",
   "tn lk;1;13b 0;12d 136;17m 0;17r 18z;17r 190;18o 190;17r 191;18q 190;19x 0;17r 19w;18o 19w;",
   "1c7 19w;18q 19w;1c0 0;1cl 190;1c2 0;1c1 190;1cj 0;1ci 190;1t5 0;1t4 1to;1td 0;1tc 1to;1tg 0;",
   "1tf 1to;1ug 0;1sl 1to;1sm 1to;1sn 1to;1ss 1to;1sx 1to;1sy 1to;1t7 1to;1tb 1to;1xn 0;1xj 1xa;",
   "1xj 1xz;1y4 0;1wh 1x8;1wi 1x8;1y7 0;1wv 1x8;20j 0;20i 20s;20m 0;20o 20s;21l 0;1zq 20s;1zr 20s;",
   "1zw 20s;21q 0;20b 20s;288 0;287 28m;28b 0;287 27y;287 28n;28s 0;275 27w;276 27w;2ac 0;2aa 2c7;",
   "2bu 0;2bq 2bi;2br 2bi;2bq 2c7;2fc 0;2fa 2fq;2io 0;2in 2j9;2iv 0;2iu 2j9;2iu 2ja;2iy 0;2iu 2iq;",
   "2iu 2iq 2j9;2mi 0;2me 2m6;2mf 2m6;2me 2mv;2qi 0;2qh 2q2;2qk 0;2qh 2q7;2qh 2q7 2q2;2qh 2qn;",
   "2sz 0;2tp 2sy;2wj 0;2x9 2wi;2xo 0;2wb 2vt;2wb 2w1;30j 0;30i 33r;30t 0;30s 33r;30y 0;30x 33r;",
   "313 0;312 33r;318 0;317 33r;31l 0;30g 33p;31v 0;31t 31u;31x 0;31t 31w;33m 328;33m 31t 328;",
   "33n 328;33n 31t 328;329 0;31t 328;32r 0;32q 33r;331 0;330 33r;336 0;335 33r;33b 0;33a 33r;",
   "33g 0;33f 33r;33t 0;32o 33p;36u 0;36t 372;3cs 0;3bw;5c6 0;5c5 5dh;5c8 0;5c7 5dh;5ca 0;5c9 5dh;",
   "5cc 0;5cb 5dh;5ce 0;5cd 5dh;5ci 0;5ch 5dh;5dn 0;5dm 5dh;5dp 0;5do 5dh;5ds 0;5dq 5dh;5dr 5dh;",
   "5dv 0;5du 5dh;5rg 0;1t;5i;1u;5rk 0;1w;1x;b2;1z 0 26;5rw 0;27;f6;28;2a;2c;2d;2f;2p;gg;gh;5qa;",
   "2q;2s;2t;gp;gr;gs;2v;5sf 0;2z;31;97;33;gk;5qu;5qv;34;38;39;5r1;hb;3a;5r9;qa 0 qc;qu;qv;2x;36;",
   "39;3a;qa;qb;qp;qu;qv;5tk 0;u5;5uj 0;gi;2r;gl;6o;gs;2u;gv;gx;h1;h4 0 h6;5tn;il;h9;5tx;in;hd;hc;",
   "he 0 hh;hk;hu;hv;bv;i1;i2;5r0;i3;i4;3e;i8 0 ia;qg;5xc 0;1t md;1;1u lj;1;1u mb;1;1u mp;1;",
   "1v mf ld;1;1w lj;1;1w mb;1;1w mp;1;1w mf;1;1w ml;1;1x lg lc;1;1x lg ld;1;1x ml;1;1x mo;1;",
   "1x mf li;1;1y lj;1;1z lg;1;20 lj;1;20 mb;1;20 lk;1;20 mf;1;20 mm;1;21 mo;1;21 lk ld;1;23 ld;1;",
   "23 mb;1;23 mp;1;24 mb;1;24 mb lg;1;24 mp;1;24 ml;1;25 ld;1;25 lj;1;25 mb;1;26 lj;1;26 mb;1;",
   "26 mp;1;26 ml;1;27 lf ld;1;27 lf lk;1;27 lg lc;1;27 lg ld;1;28 ld;1;28 lj;1;2a lj;1;2a mb;1;",
   "2a mb lg;1;2a mp;1;2b lj;1;2b mb;1;2b ld lj;1;2b lo lj;1;2b mb lj;1;2c lj;1;2c mb;1;2c mp;1;",
   "2c ml;1;2d mc;1;2d mo;1;2d ml;1;2d lf ld;1;2d lg lk;1;2e lf;1;2e mb;1;2f lc;1;2f ld;1;2f lk;1;",
   "2f lj;1;2f mb;1;2g lj;1;2g lk;1;2h lj;1;2i le;1;2i mb;1;2i mp;1;2w mp;38 lk;3b lm;3d lm;2p ji;",
   "37 lj;61s 0;1t mb;1;1t ll;1;1t le ld;1;1t le lc;1;1t le ll;1;1t le lf;1;1t mb le;1;1t li ld;1;",
   "1t li lc;1;1t li ll;1;1t li lf;1;1t mb li;1;1x mb;1;1x ll;1;1x lf;1;1x le ld;1;1x le lc;1;",
   "1x le ll;1;1x le lf;1;1x mb le;1;21 ll;1;21 mb;1;27 mb;1;27 ll;1;27 le ld;1;27 le lc;1;",
   "27 le ll;1;27 le lf;1;27 mb le;1;27 m3 ld;1;27 m3 lc;1;27 m3 ll;1;27 m3 lf;1;27 m3 mb;1;2d mb;",
   "1;2d ll;1;2d m3 ld;1;2d m3 lc;1;2d m3 ll;1;2d m3 lf;1;2d m3 mb;1;2h lc;1;2h mb;1;2h ll;1;",
   "2h lf;1;64g 0;q9 lv;q9 lw;q9 lv lc;q9 lw lc;q9 lv ld;q9 lw ld;q9 lv n6;q9 lw n6;pd lv;pd lw;",
   "pd lv lc;pd lw lc;pd lv ld;pd lw ld;pd lv n6;pd lw n6;qd lv;qd lw;qd lv lc;qd lw lc;qd lv ld;",
   "qd lw ld;654 0;ph lv;ph lw;ph lv lc;ph lw lc;ph lv ld;ph lw ld;65c 0;qf lv;qf lw;qf lv lc;",
   "qf lw lc;qf lv ld;qf lw ld;qf lv n6;qf lw n6;pj lv;pj lw;pj lv lc;pj lw lc;pj lv ld;pj lw ld;",
   "pj lv n6;pj lw n6;qh lv;qh lw;qh lv lc;qh lw lc;qh lv ld;qh lw ld;qh lv n6;qh lw n6;pl lv;",
   "pl lw;pl lv lc;pl lw lc;pl lv ld;pl lw ld;pl lv n6;pl lw n6;qn lv;qn lw;qn lv lc;qn lw lc;",
   "qn lv ld;qn lw ld;66g 0;pr lv;pr lw;pr lv lc;pr lw lc;pr lv ld;pr lw ld;66o 0;qt lv;qt lw;",
   "qt lv lc;qt lw lc;qt lv ld;qt lw ld;qt lv n6;qt lw n6;66x 0;px lw;66z 0;px lw lc;671 0;",
   "px lw ld;673 0;px lw n6;qx lv;qx lw;qx lv lc;qx lw lc;qx lv ld;qx lw ld;qx lv n6;qx lw n6;",
   "q1 lv;q1 lw;q1 lv lc;q1 lw lc;q1 lv ld;q1 lw ld;q1 lv n6;q1 lw n6;q9 lc;q9 ld;qd lc;qd ld;",
   "qf lc;qf ld;qh lc;qh ld;qn lc;qn ld;qt lc;qt ld;qx lc;qx ld;680 0;q9 lv n9;q9 lw n9;",
   "q9 lv lc n9;q9 lw lc n9;q9 lv ld n9;q9 lw ld n9;q9 lv n6 n9;q9 lw n6 n9;pd lv n9;pd lw n9;",
   "pd lv lc n9;pd lw lc n9;pd lv ld n9;pd lw ld n9;pd lv n6 n9;pd lw n6 n9;qf lv n9;qf lw n9;",
   "qf lv lc n9;qf lw lc n9;qf lv ld n9;qf lw ld n9;qf lv n6 n9;qf lw n6 n9;pj lv n9;pj lw n9;",
   "pj lv lc n9;pj lw lc n9;pj lv ld n9;pj lw ld n9;pj lv n6 n9;pj lw n6 n9;qx lv n9;qx lw n9;",
   "qx lv lc n9;qx lw lc n9;qx lv ld n9;qx lw ld n9;qx lv n6 n9;qx lw n6 n9;q1 lv n9;q1 lw n9;",
   "q1 lv lc n9;q1 lw lc n9;q1 lv ld n9;q1 lw ld n9;q1 lv n6 n9;q1 lw n6 n9;q9 li;q9 lg;q9 lc n9;",
   "q9 n9;q9 ld n9;69i 0;q9 n6;q9 n6 n9;pd li;pd lg;pd lc;pd ld;pd n9;69q 0;qh;69u 0;qf lc n9;",
   "qf n9;qf ld n9;69y 0;qf n6;qf n6 n9;ph lc;ph ld;pj lc;pj ld;pj n9;6a8 0;qh li;qh lg;qh lk lc;",
   "qh lk ld;6ae 0;qh n6;qh lk n6;pl li;pl lg;pl lc;pl ld;6ao 0;qt li;qt lg;qt lk lc;qt lk ld;",
   "qp lv;qp lw;qt n6;qt lk n6;px li;px lg;px lc;px ld;pt lw;6b6 0;qx lc n9;qx n9;qx ld n9;6ba 0;",
   "qx n6;qx n6 n9;pr lc;pr ld;q1 lc;q1 ld;q1 n9;6ep 0;2x;6f3 0;32;6fk 0;2p;2t;33;3c;gp;2w;",
   "2z 0 32;34;37;38;6iq 0;1v;6iv 0;b4;6iy 0;2v;20;;;1;87;21;;24;1;6j9 0;26;6jd 0;28 0 2a;2a;;",
   "6jo 0;2i;6jq 0;q1;6js 0;2i;6ju 0;23;1t lm;1u;1v;6jz 0;2t;1x;1y;6k3 0;25;33;15c 0 15f;2x;6kc 0;",
   "qo;qb;pf;ps;6kl 0;1w;1;2t;2x;2y;6lc 0;21;21 21;21 21 21;21 2e;2e;2e 21;2e 21 21;2e 21 21 21;",
   "21 2g;2g;2g 21;2g 21 21;24;1v;1w;25;2x;2x 2x;2x 2x 2x;2x 3a;3a;3a 2x;3a 2x 2x;3a 2x 2x 2x;",
   "2x 3c;3c;3c 2x;3c 2x 2x;30;2r;2s;31;8sc 0;2y;2e;8z3 0;8yp;9iw 0;gg1;gg4;gg5;9jg 0;9jf 9ll;",
   "9ji 0;9jh 9ll;9jk 0;9jj 9ll;9jm 0;9jl 9ll;9jo 0;9jn 9ll;9jq 0;9jp 9ll;9js 0;9jr 9ll;9ju 0;",
   "9jt 9ll;9jw 0;9jv 9ll;9jy 0;9jx 9ll;9k0 0;9jz 9ll;9k2 0;9k1 9ll;9k5 0;9k4 9ll;9k7 0;9k6 9ll;",
   "9k9 0;9k8 9ll;9kg 0;9kf 9ll;9kf 9lm;9kj 0;9ki 9ll;9ki 9lm;9km 0;9kl 9ll;9kl 9lm;9kp 0;9ko 9ll;",
   "9ko 9lm;9ks 0;9kr 9ll;9kr 9lm;9lg 0;9ja 9ll;9lq 0;9lp 9ll;9l4 9l6;9m4 0;9m3 9ll;9m6 0;9m5 9ll;",
   "9m8 0;9m7 9ll;9ma 0;9m9 9ll;9mc 0;9mb 9ll;9me 0;9md 9ll;9mg 0;9mf 9ll;9mi 0;9mh 9ll;9mk 0;",
   "9mj 9ll;9mm 0;9ml 9ll;9mo 0;9mn 9ll;9mq 0;9mp 9ll;9mt 0;9ms 9ll;9mv 0;9mu 9ll;9mx 0;9mw 9ll;",
   "9n4 0;9n3 9ll;9n3 9lm;9n7 0;9n6 9ll;9n6 9lm;9na 0;9n9 9ll;9n9 9lm;9nd 0;9nc 9ll;9nc 9lm;9ng 0;",
   "9nf 9ll;9nf 9lm;9o4 0;9ly 9ll;9o7 0;9nz 9ll;9o0 9ll;9o1 9ll;9o2 9ll;9oe 0;9od 9ll;9mb 9mw;",
   "9pt 0;3cw;3cx;3hm;3cy;3ho;3hp;3cz 0 3d1;3hs 0 3hx;3dm;3d2 0 3d4;3dt;3d5 0 3de;3fl 0 3g5;3fk;",
   "3dg;3dh;3if;3ig;3ik;3im;3ir;3iv;3ix;3do;3j1;3j3;3dp;3dq;3ds;3du;3dv;3dz;3e1;3e3 0 3e7;3ea;3ee;",
   "3eo;3ev;3f0;3jl;3jm;3fb 0 3fd;3gk;3gl;3go;3gx;3gy;3h0;3ha;3hd;wws 0;ui;uk;x2o 0;x2n;x6a 0;1v;",
   "1y;29;x6g 0;86;9f;xuk 0;x0n;xtj;h7;xua;xux 0;i5;1d6o 0;rpk;kc4;s7e;rt4;lw1;fg2;gkl;vj0;;hn5;",
   "ssx;gw7;hmw;jcm;ne1;p6t;qin;qt6;r20;sjz;kxu;ljv;mah;mvy;q4d;sq2;uep;fia;ghh;l50;mjf;qi5;v8e;",
   "ifk;m3v;qfh;r50;jih;pnc;qvz;iq2;kd3;lm2;mpo;slq;fpi;g53;gda;jwk;l3n;mj4;nhj;pa9;qh2;qjg;s1b;",
   "tv6;upb;v7e;nt8;nzz;otc;q15;t1g;vb3;rfa;hjz;iro;okg;pdq;mle;nuy;rsy;ttj;hjs;i8y;kyb;lp6;lxr;",
   "oq7;oxj;tor;gcy;pe3;g64;g5o;o4c;ou6;q29;tpx;rk0;jin;kxu;rge;fg9;i5j;iz6;mtj;n74;gev;nwb;fr3;",
   "iw9;ff1;lho;k1k;opu;gjn;hge;ni9;q4p;re2;la2;sds;lfs;jjy;put;jog;n6t;fji;g2x;g5l;kn5;oo7;prj;",
   "rf6;ssv;gdx;gn6;ho3;ir0;k3p;m4e;nxm;tkd;ui2;vbr;vda;gbf;kau;l87;sbm;ino;j9s;jcw;jve;lyb;mdl;",
   "n0p;o22;ovo;pdb;s9y;q9a;sgz;t3e;g7r;gbn;gql;ma0;r0i;re2;iq1;iyd;jnf;l9q;oji;mt1;fl0;h6h;i5j;",
   "iii;izg;muq;mzt;p7e;pc6;svo;tti;tvs;u1k;fpn;o1a;ss4;trs;j4x;fie;fyy;i5q;i7z;k2h;kxu;mha;ncy;",
   "q9o;sjg;vil;k94;tny;gax;kfv;kj7;lkx;luk;mx5;n6h;nsb;opc;u3i;g31;je6;tq0;fu3;ie1;lpm;sa2;ivf;",
   "j7o;kk7;mtj;tqe;g89;glr;i91;k5v;kem;ko8;lid;mx2;naa;p6h;r0v;r1d;sss;tsy;gfz;lve;gm5;mhc;n14;",
   "qgq;tr7;uvr;vbz;kgn;lor;pns;o97;obk;olu;mo0;m8p;riw;fk0;px2;g8q;g7b;ip2;jir;onq;i2t;ljy;kac;",
   "saj;qx8;tot;r63;iqb;g1s;gxs;1de8 0;hga;1dea 0;k8k;1ded 0;g66;mqy;ngq;ny4;nz2;nz9;o0f;tw6;on2;",
   "p8d;1deo 0;qhe;1deq 0;rg8;1det 0;shk;sn1;1dey 0;u7j;u7w;u94;v5g;sm6;trr;fqm;fzb;g25;gcp;gdg;",
   "ggh;gwt;gzq;h2g;hfk;hig;i90;i9a;j2s;j8o;j9q;jci;k0f;k4i;k9d;kn9;lmf;lqy;lya;mem;mjv;mxu;ntd;",
   "ny6;nyh;nyg;nyo;nyu;nz1;o0d;o0e;o5c;o75;og0;ovo;ow9;oxt;p6a;pad;pnx;prt;;q53;r2o;r6e;rgh;ri1;",
   "rtf;ruw;sdy;shk;tsz;u0v;u2j;j1x;36cu;pp4;1dgw 0;ffq;g51;g2w;fpc;g1x;g3k;gcn;ge2;gwt;gut;gwp;",
   "gyq;hga;hir;hms;hn8;huq;i08;iqa;iqh;iuh;iwd;j4o;j7y;j60;j9q;j8g;jci;jec;jpg;jrw;jte;k0m;k8k;",
   "kd3;kd7;keu;l89;la2;lkx;lwb;lvv;lya;m5a;mem;nmv;mk5;mnj;mqy;n01;n46;n5n;nbx;nbz;ngq;nh7;nhw;",
   "nka;nk0;nv0;o8h;og0;ol7;orf;ovo;p4u;pad;pxu;q27;qrd;r41;r5y;r6e;ren;rg8;rez;rgh;rge;rfx;ri1;",
   "rka;ruw;sag;sj6;srd;sxi;tq4;tsz;tw6;tzv;u0v;u17;u2j;umq;vj0;313e;3138;33dh;brx;cns;cop;39e1;",
   "3bgw;3i6r;vgj;vim;1dkw 0;2u 2u;2u 2x;2u 30;2u 2u 2x;2u 2u 30;37 38;;1dlf 0;12s 12u;12s 12d;",
   "12s 12j;132 12u;12s 12l;1dlp 0;15l 14k;1dlr 0;16a 14n;15u;15c;15f;15g;15n 0 15p;160;162;",
   "1dm2 0;161 14x;161 14y;161 14s 14x;161 14s 14y;15c 14n;15c 14o;15c 14s;15d 14s;15e 14s;",
   "15f 14s;15g 14s;15h 14s;15i 14s;1dmg 0;15k 14s;15l 14s;15m 14s;15n 14s;15o 14s;1dmm 0;15q 14s;",
   "1dmo 0;15s 14s;15t 14s;1dmr 0;15v 14s;15w 14s;1dmu 0;15y 14s;15z 14s;160 14s;161 14s;162 14s;",
   "15h 14p;15d 14v;15n 14v;15w 14v;15c 15o;19t;;1a3;;;;1a6;;;;1a8;;;;1a2;;;;1a7;;;;1a1;;;;1b8;;;;",
   "1ba;;;;1ac;;;;1ab;;;;1ae;;;;1af;;;;1al;;1ak;;1am;;1ag;;1aw;;1ap;;1bd;;;;1bj;;;;1bn;;;;1bl;;;;",
   "1bu;;1bv;;;;1cl 190;;1c1;;;;1by;;;;1ci;;1ci 190;;1dqr 0;1bh;;;;1c7;;1c6;;1c8;;1c7 19w;1cb;;",
   "1c5;;1c9;;1cg;;;;18p;;18q 190 17r;;18q 190 1cl;;18q 190 18o;;18q 190 1c7;;18q 190 1c6;;",
   "18q 190 1c8;;18q 190 1cg;;;18q 190 18p;;;1cc;;;;18q 190 17w;18q 190 17x;18q 190 18l;",
   "18q 190 18p;18q 190 18q;17s 17w;17s 17x;17s 17y;17s 18l;17s 18p;17s 18q;17u 17w;17u 17x;",
   "17u 17y;17u 18l;17u 18p;17u 18q;17v 17w;17v 18l;17v 18p;17v 18q;17w 17x;17w 18l;17x 17w;",
   "17x 18l;17y 17w;17y 17x;17y 18l;183 17w;183 17x;183 17y;183 18l;185 17x;185 18l;186 17w;",
   "186 17x;186 17y;186 18l;187 17x;187 18l;188 18l;189 17w;189 18l;18a 17w;18a 18l;18h 17w;",
   "18h 17x;18h 17y;18h 18l;18h 18p;18h 18q;18i 17x;18i 18l;18i 18p;18i 18q;18j 17r;18j 17w;",
   "18j 17x;18j 17y;18j 18k;18j 18l;18j 18p;18j 18q;18k 17w;18k 17x;18k 17y;18k 18l;18k 18p;",
   "18k 18q;18l 17w;18l 17x;18l 17y;18l 18l;18l 18p;18l 18q;18m 17w;18m 17x;18m 17y;18m 18l;",
   "18m 18p;18m 18q;18n 17w;18n 18l;18n 18p;18n 18q;18q 17w;18q 17x;18q 17y;18q 18l;18q 18p;",
   "18q 18q;180 19s;181 19s;18p 19s;1dus 0;18q 190 181;18q 190 182;18q 190 18l;18q 190 18m;",
   "18q 190 18p;18q 190 18q;17s 181;17s 182;17s 18l;17s 18m;17s 18p;17s 18q;17u 181;17u 182;",
   "17u 18l;17u 18m;17u 18p;17u 18q;17v 181;17v 182;17v 18l;17v 18m;17v 18p;17v 18q;18h 18p;",
   "18h 18q;18i 18p;18i 18q;18j 17r;18j 18k;18j 18l;18j 18p;18j 18q;18k 18l;18k 18p;18k 18q;",
   "18l 17r;18l 18l;18m 181;18m 182;18m 18l;18m 18m;18m 18p;18m 18q;18p 19s;18q 181;18q 182;",
   "18q 18l;18q 18m;18q 18p;18q 18q;18q 190 17w;18q 190 17x;18q 190 17y;18q 190 18l;18q 190 18n;",
   "17s 17w;17s 17x;17s 17y;17s 18l;17s 18n;17u 17w;17u 17x;17u 17y;17u 18l;17u 18n;17v 18l;",
   "17w 17x;17w 18l;17x 17w;17x 18l;17y 17w;17y 18l;183 17w;183 17x;183 17y;183 18l;185 17x;",
   "185 17y;185 18l;186 17w;186 17x;186 17y;186 18l;187 17x;188 18l;189 17w;189 18l;18a 17w;",
   "18a 18l;18h 17w;18h 17x;18h 17y;18h 18l;18i 17x;18i 18l;18j 17w;18j 17x;18j 17y;18j 18k;",
   "18j 18l;18k 17w;18k 17x;18k 17y;18k 18l;18k 18n;18l 17w;18l 17x;18l 17y;18l 18l;18m 17w;",
   "18m 17x;18m 17y;18m 18l;18m 18n;18n 17w;18n 18l;18n 19s;18q 17w;18q 17x;18q 17y;18q 18l;",
   "18q 18n;18q 190 18l;18q 190 18n;17s 18l;17s 18n;17u 18l;17u 18n;17v 18l;17v 18n;183 18l;",
   "183 18n;184 18l;184 18n;18j 18k;18j 18l;18k 18l;18m 18l;18m 18n;18q 18l;18q 18n;18g 18u 18x;",
   "18g 18v 18x;18g 18w 18x;187 18p;187 18q;189 18p;189 18q;18a 18p;18a 18q;183 18p;183 18q;",
   "184 18p;184 18q;17x 18p;17x 18q;17w 18p;17w 18q;17y 18p;17y 18q;185 18p;185 18q;186 18p;",
   "186 18q;184 17w;184 17x;184 17y;184 18l;184 181;183 181;185 181;186 181;187 18p;187 18q;",
   "189 18p;189 18q;18a 18p;18a 18q;183 18p;183 18q;184 18p;184 18q;17x 18p;17x 18q;17w 18p;",
   "17w 18q;17y 18p;17y 18q;185 18p;185 18q;186 18p;186 18q;184 17w;184 17x;184 17y;184 18l;",
   "184 181;183 181;185 181;186 181;184 17w;184 17x;184 17y;184 18l;183 18n;184 18n;187 18l;",
   "183 17w;183 17x;183 17y;184 17w;184 17x;184 17y;187 18l;188 18l;17r 18r;;1e1c 0;17u 17w 18l;",
   "17u 17x 17w;;17u 17x 18l;17u 17y 18l;17u 18l 17w;17u 18l 17x;17u 18l 17y;17w 18l 17x;;",
   "17x 18l 18q;17x 18l 18p;183 17x 17w;183 17w 17x;183 17w 18p;183 18l 17x;;183 18l 17w;",
   "183 18l 18l;;185 17x 17x;;185 18l 18l;184 17x 18l;;184 17w 18q;184 18l 17y;;184 18l 18l;;",
   "186 17x 18p;186 17y 18l;;187 18l 17x;;187 18l 18l;187 18l 18q;189 17w 18l;189 18l 18l;;",
   "189 18l 18p;18a 18l 18l;18a 18l 18q;18a 18l 18p;18h 17y 18l;;18i 18l 17x;18i 18l 18l;",
   "18k 17x 18l;18k 17x 18q;18k 17x 18p;18k 17w 17w;;18k 17y 18l;;18k 18l 17x;;18l 17x 17w;",
   "18l 17x 18l;18l 17x 18q;18l 17w 17x;18l 17w 18l;18l 17y 17w;18l 17y 18l;1e36 0;18l 17w 17y;",
   "18n 18l 17w;18n 18l 18l;18m 17x 18l;18m 17x 18p;18m 17w 18l;;18m 17w 18p;18m 18l 18q;",
   "18m 18l 18p;18q 18l 18l;;17s 17y 18q;17u 17w 18q;17u 17w 18p;17u 17y 18q;17u 17y 18p;",
   "17u 18l 18q;17u 18l 18p;17w 18l 18q;17w 17x 18p;17w 18l 18p;183 17y 18p;185 17x 18q;",
   "184 17x 18q;186 17x 18q;18k 17w 18q;18k 18l 18q;18q 17x 18q;18q 17w 18q;18q 18l 18q;",
   "18l 18l 18q;18i 18l 18q;18m 17x 18q;18i 18l 17x;18k 17x 18l;189 18l 18q;18j 18l 18q;",
   "18m 17w 17x;18l 17y 18q;18k 17w 18l;18j 18l 18l;18k 17w 18l;18m 17w 17x;17w 17x 18q;",
   "17x 17w 18q;18l 17w 18q;18h 18l 18q;17s 17x 18q;18j 18l 18l;189 17w 18l;185 18l 18l;",
   "183 17y 18q;18m 17w 18q;1e5s 0;185 18k 1ci;18i 18k 1ci;17r 18k 18k 18n;17r 18j 17s 181;",
   "18l 17x 18l 17z;185 18k 189 18l;181 183 18o 18k;189 18k 18q 18n;18o 183 18k 18l;185 18k 18p;",
   "1e7n 0;2n;;1e8d 0;;;;1e9d 0;18g 18r;1e9j 0;18g 18u;1e9l 0;18g 18v;1e9n 0;18g 18w;1e9p 0;",
   "18g 18x;1e9r 0;18g 18y;17l;17r 18z;;17r 190;;18o 190;;17r 191;;18q 190;;;;17r;;17s;;;;17t;;",
   "17u;;;;17v;;;;17w;;;;17x;;;;17y;;;;17z;;180;;181;;182;;183;;;;184;;;;185;;;;186;;;;187;;;;188;",
   ";;;189;;;;18a;;;;18h;;;;18i;;;;18j;;;;18k;;;;18l;;;;18m;;;;18n;;;;18o;;18p;;18q;;;;",
   "18k 17r 18z;;18k 17r 190;;18k 17r 191;;18k 17r;;1eds 0;1c 0 1l;1ee9 0;1t 0 2i;1ef3 0;2n;",
   "1ef5 0;2p 0 3e;1eg6 0;9o2;9lt;9lv;9lx;9lz;9m1;9nn;9np;9nr;9mr;9oc;9lu;9lw;9ly;9m0;9m2;9m3;9m5;",
   "9m7;9m9;9mb;9md;9mf;9mh;9mj;9ml;9mn;9mp;9ms;9mu;9mw;9my 0 9n3;9n6;9n9;9nc;9nf;9ni 0 9nm;9no;",
   "9nq;9ns 0 9nx;9nz;9o3;9ll;9lm;3fk;3cw;3cx;3hm;3cy;3ho;3hp;3cz 0 3d1;3hs 0 3hx;3dm;3d2 0 3d4;",
   "3dt;3d5 0 3de;1eiq 0;3fl 0 3fq;1eiy 0;3fr 0 3fw;1ej6 0;3fx 0 3g2;1eje 0;3g3 0 3g5;1g1t 0;k0;",
   "k1;6e;ih;gj;1g1z 0;ir;xuu;it;is;gm;gn;5u9;go;gu;ix;h0;gy;gw;ij;87;ik;h3;hw;iy;iz;h8;2mmc;x3i;",
   "ha;2mmd;i6;2mme;6w;hi;hj;35;hm;2mmg;hp;hq;hs;iw;iu;xuv;iv;i0;8s1;1g36 0;i7;ip;iq;ig;cg 0 ci;",
   "2mmi;2mn2;1hui 0;1huh 1hve;1huk 0;1huj 1hve;1huz 0;1hut 1hve;1hym 0;1hyp 1hyf;1hyq 1hyf;",
   "1idn 0;1idj 1ida;1idj 1idz;1inv 0;1int 1inu;1int 1ink;1iny 0;1int 1inx;1iuy 0;1iuw 1iun;",
   "1iux 1iun;1jjs 0;1jjp 1jjk;2kg0 0;1t 0 2i;2p 0 3e;1t 0 2i;2p 0 2v;2kie 0;2x 0 3e;1t 0 2i;",
   "2p 0 3e;1t;2kke 0;1v;1w;2kki 0;1z;2kkl 0;22;23;2kkp 0;26 0 29;2kku 0;2b 0 2i;2p 0 2s;2kl7 0;",
   "2u;2kl9 0;2w 0 32;2klh 0;34 0 3e;1t 0 2i;2p 0 3e;1t;1u;2knb 0;1w 0 1z;2knh 0;22 0 29;2knq 0;",
   "2b 0 2h;2kny 0;2p 0 3e;1t;1u;2kor 0;1w 0 1z;2kow 0;21 0 25;2kp2 0;27;2kp6 0;2b 0 2h;2kpe 0;",
   "2p 0 3e;1t 0 2i;2p 0 3e;1t 0 2i;2p 0 3e;1t 0 2i;2p 0 3e;1t 0 2i;2p 0 3e;1t 0 2i;2p 0 3e;",
   "1t 0 2i;2p 0 3e;8h;fr;2kyw 0;pd 0 pt;pk;pv 0 q1;2kzm 0;q9 0 qx;2l0c 0;qd;qg;qi;qu;qp;qo;",
   "pd 0 pt;pk;pv 0 q1;2l18 0;q9 0 qx;2l1y 0;qd;qg;qi;qu;qp;qo;pd 0 pt;pk;pv 0 q1;2l2u 0;q9 0 qx;",
   "2l3k 0;qd;qg;qi;qu;qp;qo;pd 0 pt;pk;pv 0 q1;2l4g 0;q9 0 qx;2l56 0;qd;qg;qi;qu;qp;qo;pd 0 pt;",
   "pk;pv 0 q1;2l62 0;q9 0 qx;2l6s 0;qd;qg;qi;qu;qp;qo;rg;rh;2l72 0;1c 0 1l;1c 0 1l;1c 0 1l;",
   "1c 0 1l;1c 0 1l;2pkw 0;17r;17s;17w;17z;2pl1 0;18o;182;17x;187;18q;18j 0 18m;183;189;18h;185;",
   "18i;181;184;17u;17v;17y;180;186;188;18a;19q;1bu;1b5;19r;2plt 0;17s;17w;2plw 0;18n;2plz 0;17x;",
   "2pm1 0;18q;18j 0 18m;183;189;18h;185;18i;2pmc 0;184;17u;17v;17y;2pmh 0;186;2pmj 0;18a;2pmq 0;",
   "17w;2pmv 0;17x;2pmx 0;18q;2pmz 0;18k;2pn1 0;18m;183;189;2pn5 0;185;18i;2pn8 0;184;2pnb 0;17y;",
   "2pnd 0;186;2pnf 0;18a;2pnh 0;1bu;2pnj 0;19r;2pnl 0;17s;17w;2pno 0;18n;2pnr 0;17x;187;18q;18j;",
   "2pnw 0;18l;18m;183;189;18h;185;18i;2po4 0;184;17u;17v;17y;2po9 0;186;188;18a;19q;2poe 0;1b5;",
   "2pog 0;17r;17s;17w;17z;18n;18o;182;17x;187;18q;2por 0;18k 0 18m;183;189;18h;185;18i;181;184;",
   "17u;17v;17y;180;186;188;18a;2ppd 0;17s;17w;17z;2pph 0;18o;182;17x;187;18q;2ppn 0;18k 0 18m;",
   "183;189;18h;185;18i;181;184;17u;17v;17y;180;186;188;18a;2sc0 0;1c 0 1l;464g 0;fgd;fg8;fgh;",
   "2tcy;fog;fqm;fqz;fsy;fwa;fx5;fzb;fyn;ae6;2ud6;g25;g2c;g2s;g3b;2u58;aex;g2v;g3x;2u6j;g47;g4k;",
   "fkc;g4s;g51;3ly7;g6t;g77;afz;g8r;g92;gaa;gaf;ahh;gcn;gcp;gdg;ge2;ged;gee;gev;gg9;ggh;ggq;ghf;",
   "ghp;ghr;;;2v58;m7k;gju;gkf;2vdv;gkr;gkx;gli;gpq;gmw;gnc;1;gpu;gs6;gsw;gur;gv7;gw4;;gwp;gx7;",
   "gxf;gxu;h7a;gzq;h7b;h1t;h2s;g7b;hke;hce;hdg;he5;haj;hf6;hf5;hik;2x9g;hki;hkn;hl2;hlm;hlu;hnm;",
   "2xm0;2xnu;hrg;hsr;ht3;hqw;huu;aum;av0;hzc;i0u;;2y88;i4j;i54;i5j;i5v;2yhk;i67;i6e;itv;i76;ayp;",
   "i8w;i9a;ibk;ia5;2z1g;if7;2z1i;ige;igb;igs;ijl;ijm;b3j;ikd;ilk;im5;ind;b4y;2zr7;b5o;ipc;ipf;",
   "ipi;iq2;3pg2;iri;3035;;poh;isi;;b7r;335k;3cgq;iua;iuj;b8j;ivu;ix9;ixj;iyh;j29;bay;ba4;j2s;",
   "30t0;j47;j7s;j7w;j7y;j7w;j96;j9q;jaq;jac;jan;jby;jci;jcm;jdc;jdn;jfh;jht;jis;jm8;31n0;jlp;jjw;",
   "jmw;jnn;jqc;31td;js2;jph;jop;bhq;ju1;jum;jvh;juf;bjg;k0f;k18;32mi;k4j;kc8;k7d;bo9;k9d;bns;bms;",
   "g42;g45;kcg;k9o;pf1;deh;kd3;kd7;kdd;kf2;ker;33cz;bpl;kje;kg5;klu;kn9;33hp;kni;kkf;kr8;brx;ksi;",
   "kv7;kx6;l2g;33xf;l3v;bvc;l5t;34br;l78;bwu;l82;l9b;la2;la3;34p9;2yvf;34sa;le6;354s;lhb;lhp;lev;",
   "ljq;lku;lmf;lkx;lm1;lmg;lmt;357i;lkk;lrj;lta;c37;lvv;lvr;35jl;lq1;m0e;35ni;35ou;m2u;m61;m5a;",
   "m57;c5y;m6i;m7x;m7r;m99;2u5h;mdh;368z;mfw;36i3;mjs;mk5;mkw;36yw;mm8;mmt;3779;37dg;mt6;mtn;cdo;",
   "mud;ce0;;myv;mzg;n01;n0l;n2i;cgr;n50;386u;n5q;389e;n74;2zrz;nbk;38v5;38vs;38zo;cn0;cnc;nhw;",
   "394j;394i;395l;396b;nj2;nj3;;nka;cop;nm3;cp2;cra;39r1;nri;nt8;nv0;ctf;3a5i;nyu;3a8q;3a9x;o0f;",
   "o2z;cvj;o5c;o5m;o5r;3at8;3b1j;;oa6;d1e;3b8r;og6;og9;d2f;3beo;onm;d5s;oo8;oo3;oow;3c06;orn;d8h;",
   "ouf;ow2;oxx;d9w;3ciw;3cjr;dax;3cnt;p6i;3cqm;p79;pa2;pad;3d22;3d43;pcw;3d7s;pdc;33a7;ded;pf6;",
   "phf;dfv;pj2;hx1;3dlz;3dmd;33bn;33bw;poh;pok;sda;dij;psh;psb;pst;gc3;ptd;ptf;ptp;puu;3ebg;put;",
   "pwd;pyb;q0d;pwj;q0t;q1z;q53;pxv;q16;q18;q1o;3eie;3eqz;3emt;dnv;q9d;q9f;qae;3g0a;qck;3f3g;dp9;",
   "dpd;3f75;3ff6;dpn;qj4;qjg;qjr;qjt;qll;qko;qoe;qn6;qrd;qp4;qqz;qrq;dsn;qu9;1;dtl;qxs;qxv;3giv;",
   "r13;r1a;dv9;r22;aez;3gz2;3h46;dz2;dzb;rds;rfx;rka;rpx;3hrc;rsb;rsx;rvf;rxz;3i9b;2upw;s0b;rzw;",
   "s1c;2uvy;s7o;sag;3jki;3jl9;sk4;smp;1;3ju6;snv;svs;t07;t08;sxo;t89;t91;3ksa;tjf;ej9;tkn;3l2v;",
   "eli;ts3;iia;tur;3ltx;3lzu;epa;epi;u00;3mdm;er6;3mhi;u17;;u21;3mpi;u76;eur;u95;ucn;ude;uf2;ez2;",
   "3nsg;umq;uv4;v0d;f66;f71;v3b;3owe;f7c;3oxx;3p5a;3p8x;vcr;f9y;veh;vem;vet;vf3;vfa;vgb;3pxc;"]

/-- The ranges of marks with their classes: how far each starts behind the one before, how far it
reaches, and the class. -/
def markTable : List String :=
  ["lc k 6e;1 0 6g;1 3 64;1 0 6g;1 0 60;1 4 64;1 1 5m;1 3 64;1 1 5m;1 a 64;1 4 1;1 3 64;1 7 6e;",
   "1 0 6o;1 0 6e;1 2 64;1 2 6e;1 1 64;2 2 6e;1 3 64;1 0 6e;1 0 6g;1 1 64;1 0 6e;1 0 6h;1 1 6i;",
   "1 0 6h;1 1 6i;1 0 6h;1 c 6e;7o 4 6e;7e 0 64;1 3 6e;1 0 64;1 2 6e;1 0 66;1 0 64;1 5 6e;1 5 64;",
   "1 1 6e;1 0 64;1 1 6e;1 0 66;1 0 6c;1 0 6e;1 0 a;1 0 b;1 0 c;1 0 d;1 0 e;1 0 f;1 0 g;1 0 h;",
   "1 0 i;1 1 j;1 0 k;1 0 l;1 0 m;2 0 n;2 0 o;1 0 p;2 0 6e;1 0 64;2 0 i;21 7 6e;1 0 u;1 0 v;1 0 w;",
   "1d 0 r;1 0 s;1 0 t;1 0 u;1 0 v;1 0 w;1 0 x;1 0 y;1 1 6e;1 1 64;1 4 6e;1 0 64;1 1 6e;1 0 64;",
   "h 0 z;2u 6 6e;3 3 6e;1 0 64;1 0 6e;3 1 6e;2 0 64;1 1 6e;1 0 64;10 0 10;v 0 6e;1 0 64;1 1 6e;",
   "1 0 64;1 1 6e;1 2 64;1 0 6e;1 1 64;1 0 6e;1 0 64;1 2 6e;1 0 64;1 0 6e;1 0 64;1 0 6e;1 0 64;",
   "1 0 6e;1 0 64;1 1 6e;4h 6 6e;1 0 64;1 0 6e;a 0 64;p 3 6e;2 8 6e;2 2 6e;2 4 6e;18 2 64;1p 0 6e;",
   "1 2 64;1 3 6e;17 4 6e;1 4 64;1 d 6e;2 0 64;1 1 6e;1 0 64;1 1 6e;1 0 64;1 2 6e;1 2 64;1 0 r;",
   "1 0 s;1 0 t;1 2 6e;1 0 64;1 1 6e;1 1 64;1 4 6e;1p 0 7;h 0 9;4 0 6e;1 0 64;1 1 6e;2w 0 7;h 0 9;",
   "1d 0 6e;1q 0 7;h 0 9;33 0 7;h 0 9;33 0 7;h 0 9;3k 0 9;33 0 7;h 0 9;8 0 2c;1 0 2j;2u 0 7;h 0 9;",
   "32 1 9;h 0 9;3h 0 9;32 1 2v;1 0 9;e 3 2z;31 1 3a;1 0 9;e 3 3e;25 1 64;s 0 64;2 0 64;2 0 60;",
   "1k 0 3l;1 0 3m;2 0 3o;6 3 3m;3 0 3m;2 1 6e;1 0 9;2 1 6e;1r 0 64;35 0 7;2 1 9;2b 0 64;k0 2 6e;",
   "qd 1 9;v 0 9;4e 0 9;b 0 6e;5o 0 6c;40 0 66;1 0 6e;1 0 64;64 0 6e;1 0 64;20 0 9;l 7 6e;3 0 64;",
   "1d 4 6e;1 5 64;1 1 6e;1 0 64;2 1 64;1 1 6e;1 1 64;1 4 6e;1 0 64;1 3 6e;2u 0 7;g 0 9;13 0 6e;",
   "1 0 64;1 6 6e;1j 1 9;1n 0 7;c 1 9;1w 0 7;49 2 6e;2 0 1;1 4 64;1 1 6e;1 3 64;1 0 6e;2 6 1;",
   "5 0 64;7 0 6e;4 1 6e;5j 1 6e;1 0 64;1 6 6e;1 0 64;1 1 6e;1 0 6i;1 0 5y;1 0 64;1 0 5m;1 10 6e;",
   "1 0 6g;1 1 6c;1 0 64;1 0 62;1 0 6e;1 0 6h;1 0 64;1 0 6e;1 0 64;k1 1 6e;1 1 1;1 3 6e;1 2 1;",
   "1 1 6e;5 0 6e;4 1 1;1 0 6e;1 0 64;1 0 6e;1 1 1;1 3 64;1 0 6e;2db 2 6e;3y 0 9;2p v 6e;ff 0 62;",
   "1 0 6c;1 0 6g;1 0 66;1 1 68;2y 1 8;n9x 0 6e;5 9 6e;x 1 6e;29 1 6e;7p 0 9;12 0 9;48 0 9;s h 6e;",
   "1m 2 64;12 0 9;2o 0 7;d 0 9;6o 0 6e;2 1 6e;1 0 64;3 1 6e;6 1 6e;2 0 6e;1h 0 9;6v 0 9;fn5 0 q;",
   "le 6 6e;1 6 64;1 1 6e;r2 0 64;6b 0 64;46 4 6e;1ar 0 64;2 0 6e;15 0 6e;1 0 1;1 0 64;5 0 9;",
   "4m 0 6e;1 0 64;fy 3 6e;as 1 6e;4a 1 64;1 2 6e;1 0 64;1 0 6e;1 3 64;1e 0 6e;1 0 64;1 0 6e;",
   "1 0 64;5d 0 9;16 0 9;f 0 9;1m 0 9;1 0 7;1y 2 6e;1d 1 9;1r 0 7;25 0 9;a 0 7;2z 0 9;1 0 7;",
   "4z 0 7;1 0 9;29 1 7;h 0 9;p 6 6e;4 4 6e;5q 0 9;4 0 7;o 0 6e;2s 0 9;1 0 7;70 0 9;1 0 7;3j 0 9;",
   "3b 0 9;1 0 7;38 0 9;7i 0 9;1 0 7;77 1 9;5 0 7;4d 0 9;2c 0 9;j 0 9;2a 0 9;bq 0 9;77 0 7;2 1 9;",
   "2a 0 9;fa1 4 1;1o 6 6e;xm 1 6;f59 0 1;43r 1 60;1 2 1;4 0 6a;1 4 60;9 7 64;3 4 6e;1 1 64;",
   "v 3 6e;45 2 6e;2po 6 6e;2 g 6e;3 6 6e;2 1 6e;2 4 6e;7a 6 6e;ag 0 6e;1q 3 6e;15t 6 64;32 5 6e;",
   "1 0 7;"]

/-- Code points that stand for several others, but are never put together from them. -/
def uncomposedSet : CharSet :=
  .ofTable
    ["8i 1;c 1;9 0;3f 8;11 2;9d 0;3z 1;c3 0;6m 3;kg 7;3h 3m;72 1;k6 au;2xt 1;5y 0;2 0;2 0;2 0;2 0;",
     "2 0;2 0;1q 0;e 0;2 0;8 0;8 0;8 0;8 0;e 0;2 0;8g 28;2zo 0;2o 14ot;"]

end Lineage.Text
